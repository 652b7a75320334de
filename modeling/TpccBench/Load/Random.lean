import Mathlib.Data.Int.Bitwise
import TpccBench.Keys
import TpccBench.Lib.Shuffle
import TpccBench.Lib.Triple
import TpccBench.Rows

/-!
# Random data

A `RandomGenerator` answers the calls of its virtual function `number`, and all that is made of
the answers is deterministic. So a generator is the sequence of the answers it would give
(`TpccBench.RandomGenerator`), and a computation that draws numbers has as its state how many
have been drawn. All that is known of an answer is that it lies in the range that was asked for.
-/

namespace TpccBench

open Prog

/-- `NURandC`. -/
structure NURandC where
  cLast : ℤ
  cId : ℤ
  olIId : ℤ

/-- `RandomGenerator`: what the `n`-th call of `number` answers, and the constants of `NURand`. -/
structure RandomGenerator where
  number (n : ℕ) (lower upper : ℤ) : ℤ
  cValues : NURandC
  lower_le (n : ℕ) {lower upper : ℤ} : lower ≤ upper → lower ≤ number n lower upper
  le_upper (n : ℕ) {lower upper : ℤ} : lower ≤ upper → number n lower upper ≤ upper

/-- A computation that draws numbers. -/
abbrev Rx (α : Type) := Prog ℕ α

/-! ### Strings and names -/

/-- `SYLLABLES`. -/
def syllables : List (List Char) :=
  ["BAR".toList, "OUGHT".toList, "ABLE".toList, "PRI".toList, "PRES".toList, "ESE".toList,
    "ANTI".toList, "CALLY".toList, "ATION".toList, "EING".toList]

/-- `makeLastName`. -/
def makeLastName (num : ℤ) : Option (CString 16) := do
  guard (0 ≤ num ∧ num ≤ 999)
  let name ← [num / 100, num / 10 % 10, num % 10].mapM fun i => syllables[i.toNat]?
  CString.strcpy 16 name.flatten

/-- Two elements of an array change places. -/
def swap (array : List ℤ) (i index : ℕ) : Option (List ℤ) := do
  let temp ← array[i]?
  let other ← array[index]?
  return (array.set i other).set index temp

namespace RandomGenerator

variable (random : RandomGenerator)

/-- A call of `number`. -/
def draw (lower upper : ℤ) : Rx ℤ := fun n => some (random.number n lower upper, n + 1)

/-- `numberExcluding`. -/
def numberExcluding (lower upper excluding : ℤ) : Rx ℤ := do
  assert (lower < upper)
  assert (lower ≤ excluding ∧ excluding ≤ upper)
  let num ← random.draw lower (upper - 1)
  let num := if num ≥ excluding then num + 1 else num
  assert (lower ≤ num ∧ num ≤ upper ∧ num ≠ excluding)
  return num

/-- `generateString`, into an array with room for `n` characters. -/
def generateString (n : ℕ) (lowerLength upperLength : ℤ) (baseCharacter : Char) (numCharacters : ℤ) :
    Rx (CString n) := do
  let length ← random.draw lowerLength upperLength
  let s ← (List.range length.toNat).mapM fun _ => do
    let c ← random.draw 0 (numCharacters - 1)
    return Char.ofNat (baseCharacter.toNat + c.toNat)
  CString.strcpy n s

/-- `astring`. -/
def astring (n : ℕ) (lowerLength upperLength : ℤ) : Rx (CString n) :=
  random.generateString n lowerLength upperLength 'a' 26

/-- `nstring`. -/
def nstring (n : ℕ) (lowerLength upperLength : ℤ) : Rx (CString n) :=
  random.generateString n lowerLength upperLength '0' 10

/-- `NURand`: two answers are or-ed bit by bit, the constant is added to an `int`, and there is no remainder by
zero. -/
def nuRand (a x y : ℤ) : Rx ℤ := do
  let c ← (if a = 255 then some random.cValues.cLast
    else if a = 1023 then some random.cValues.cId
    else if a = 8191 then some random.cValues.olIId
    else none : Option ℤ)
  let left ← random.draw 0 a
  let right ← random.draw x y
  let sum ← Overflow.checked.int32 (left.lor right + c)
  assert (y - x + 1 ≠ 0)
  return sum.tmod (y - x + 1) + x

/-- `lastName`. -/
def lastName (maxCid : ℤ) : Rx (CString 16) := do
  let num ← random.nuRand 255 0 (min 999 (maxCid - 1))
  makeLastName num

/-- A number that is cast to an `int`: it is cut towards zero. -/
def cutToInt (x : ℚ) : ℤ := x.num.tdiv x.den

/-- `fixedPoint`: the bounds are rounded to `digits` digits. -/
def fixedPoint {F : Type} [Money F] (digits : ℕ) (lower upper : ℚ) : Rx F := do
  let multiplier : ℤ := 10 ^ digits
  let intLower := cutToInt (lower * multiplier + 1 / 2)
  let intUpper := cutToInt (upper * multiplier + 1 / 2)
  let num ← random.draw intLower intUpper
  return (num : F) / (multiplier : F)

/-- `makePermutation`. -/
def makePermutation (lower upper : ℤ) : Rx (List ℤ) :=
  let array := (List.range (upper - lower + 1).toNat).map fun i : ℕ => lower + i
  (List.range (upper - lower).toNat).foldlM (fun array (i : ℕ) => do
    let index ← random.draw i (upper - lower)
    swap array i index.toNat) array

end RandomGenerator

/-! ### What is drawn -/

/-- **What a computation yields**: if it ends, its result is one of these, and it ends if the
generator is fair. -/
structure Rx.Yields {α : Type} (fair : Prop) (x : Rx α) (J : α → Prop) : Prop where
  result {n n' : ℕ} {a : α} : x n = some (a, n') → J a
  ends : fair → ∀ n, (x n).isSome

namespace Rx.Yields

variable {α β ι : Type} {fair : Prop} {x : Rx α} {J J' : α → Prop}

theorem mono (h : x.Yields fair J) (hJ : ∀ a, J a → J' a) : x.Yields fair J' where
  result hx := hJ _ (h.result hx)
  ends := h.ends

protected theorem pure {a : α} (h : J a) : Rx.Yields fair (Pure.pure a) J where
  result {n n' b} hx := by
    obtain ⟨rfl, -⟩ := Prod.mk.inj (Option.some.inj hx)
    exact h
  ends _ _ := rfl

/-- **Composition.** -/
protected theorem bind {f : α → Rx β} {K : β → Prop} (hx : x.Yields fair J)
    (hf : ∀ a, J a → (f a).Yields fair K) : Rx.Yields fair (x >>= f) K where
  result hb := by
    obtain ⟨a, n₁, ha, hb⟩ := bind_eq_some hb
    exact (hf a (hx.result ha)).result hb
  ends hfair n := by
    obtain ⟨⟨a, n₁⟩, ha⟩ := Option.isSome_iff_exists.mp (hx.ends hfair n)
    rw [bind_apply, ha, Option.bind_some]
    exact (hf a (hx.result ha)).ends hfair n₁

theorem assert {p : Prop} [Decidable p] (h : fair → p) : Rx.Yields fair (Prog.assert p) fun _ => p where
  result hx := (assert_eq_some hx).1
  ends hfair n := by rw [Prog.assert, if_pos (h hfair)]; rfl

theorem lift {o : Option α} (h : fair → o.isSome) : Rx.Yields fair (liftM o) fun a => o = some a where
  result hx := (lift_eq_some hx).1
  ends hfair n := by rw [lift_apply, Option.isSome_map]; exact h hfair

/-- Nothing has to be known. -/
theorem drop (h : x.Yields fair J) : x.Yields fair fun _ => True := h.mono fun _ _ => trivial

/-- What is known of every result. -/
theorem and {K : α → Prop} (h : x.Yields fair J) (hK : ∀ ⦃n n' a⦄, x n = some (a, n') → K a) :
    x.Yields fair fun a => J a ∧ K a where
  result hx := ⟨h.result hx, hK hx⟩
  ends := h.ends

theorem ite {p : Prop} [Decidable p] {y : Rx α} (hx : p → x.Yields fair J) (hy : ¬p → y.Yields fair J) :
    Rx.Yields fair (if p then x else y) J := by
  by_cases hp : p
  · rw [if_pos hp]
    exact hx hp
  · rw [if_neg hp]
    exact hy hp

/-- **A loop that collects results**, one for each element. -/
theorem mapM_forall₂ {f : ι → Rx α} {K : ι → α → Prop} {l : List ι} (h : ∀ i ∈ l, (f i).Yields fair (K i)) :
    Rx.Yields fair (l.mapM f) (List.Forall₂ K l) := by
  induction l with
  | nil =>
    rw [List.mapM_nil]
    exact Yields.pure List.Forall₂.nil
  | cons i l ih =>
    obtain ⟨hi, hl⟩ := List.forall_mem_cons.mp h
    rw [List.mapM_cons]
    exact hi.bind fun a ha => (ih hl).bind fun as has => Yields.pure (List.Forall₂.cons ha has)

theorem mapM {f : ι → Rx α} {l : List ι} (h : ∀ i ∈ l, (f i).Yields fair J) :
    Rx.Yields fair (l.mapM f) fun as => as.length = l.length ∧ ∀ a ∈ as, J a := by
  refine (mapM_forall₂ (K := fun _ => J) h).mono fun as has => ⟨has.length_eq.symm, fun a ha => ?_⟩
  obtain ⟨-, -, hJ⟩ := exists_of_forall₂_right has ha
  exact hJ

/-- **A loop that accumulates**, with what is known after so many turns. -/
theorem foldlM_range {f : α → ℕ → Rx α} {I : ℕ → α → Prop} {n : ℕ}
    (h : ∀ i < n, ∀ a, I i a → (f a i).Yields fair (I (i + 1))) {a : α} (ha : I 0 a) :
    Rx.Yields fair ((List.range n).foldlM f a) (I n) := by
  induction n with
  | zero => exact Yields.pure ha
  | succ n ih =>
    rw [List.range_succ, List.foldlM_append]
    refine (ih fun i hi => h i (hi.trans (Nat.lt_succ_self n))).bind fun a ha => ?_
    rw [List.foldlM_cons]
    exact (h n (Nat.lt_succ_self n) a ha).bind fun a ha => Yields.pure ha

end Rx.Yields

/-! ### How much is drawn -/

/-- **A computation draws so many numbers** at most. -/
def Rx.Takes {α : Type} (x : Rx α) (k : ℕ) : Prop :=
  ∀ ⦃n n' : ℕ⦄ ⦃a : α⦄, x n = some (a, n') → n ≤ n' ∧ n' ≤ n + k

namespace Rx.Takes

variable {α β : Type} {x : Rx α} {k k' : ℕ}

protected theorem pure (a : α) : Rx.Takes (Pure.pure a) 0 := fun n n' b h => by
  obtain ⟨-, rfl⟩ := Prod.mk.inj (Option.some.inj h)
  exact ⟨le_rfl, le_rfl⟩

protected theorem bind {f : α → Rx β} (hx : x.Takes k) (hf : ∀ a, (f a).Takes k') :
    Rx.Takes (x >>= f) (k + k') := fun n n' b h => by
  obtain ⟨a, n₁, ha, hb⟩ := bind_eq_some h
  have h₁ := hx ha
  have h₂ := hf a hb
  omega

theorem lift (o : Option α) : Rx.Takes (liftM o) 0 := fun n n' a h => by
  obtain ⟨-, rfl⟩ := lift_eq_some h
  exact ⟨le_rfl, le_rfl⟩

theorem assert (p : Prop) [Decidable p] : Rx.Takes (Prog.assert p) 0 := fun n n' a h => by
  obtain ⟨-, rfl⟩ := assert_eq_some h
  exact ⟨le_rfl, le_rfl⟩

theorem ite {p : Prop} [Decidable p] {y : Rx α} (hx : x.Takes k) (hy : y.Takes k') :
    Rx.Takes (if p then x else y) (max k k') := fun n n' a h => by
  split at h
  · have := hx h
    omega
  · have := hy h
    omega

end Rx.Takes

/-! ### Names -/

theorem makeLastName_isSome {num : ℤ} (h₀ : 0 ≤ num) (h : num ≤ 999) : (makeLastName num).isSome := by
  have hall : ∀ n : Fin 1000, (makeLastName n.val).isSome := by decide +kernel
  have := hall ⟨num.toNat, by omega⟩
  simpa [Int.toNat_of_nonneg h₀] using this

/-- No syllable starts another one. -/
theorem syllables_free : ∀ i < 10, ∀ j < 10, ∀ a ∈ syllables[i]?, ∀ b ∈ syllables[j]?, a <+: b → i = j := by
  decide +kernel

/-- A name is read off syllable by syllable. -/
theorem syllable_append_inj {i j : ℕ} {a b x y : List Char} (ha : syllables[i]? = some a)
    (hb : syllables[j]? = some b) (h : a ++ x = b ++ y) : i = j ∧ x = y := by
  have hlen : syllables.length = 10 := rfl
  have hi : i < 10 := hlen ▸ (List.getElem?_eq_some_iff.mp ha).1
  have hj : j < 10 := hlen ▸ (List.getElem?_eq_some_iff.mp hb).1
  have hij : i = j := by
    rcases List.append_eq_append_iff.mp h with ⟨c, rfl, -⟩ | ⟨c, rfl, -⟩
    · exact syllables_free i hi j hj a ha _ hb (List.prefix_append a c)
    · exact (syllables_free j hj i hi b hb _ ha (List.prefix_append b c)).symm
  subst hij
  obtain rfl := Option.some.inj (ha.symm.trans hb)
  exact ⟨rfl, List.append_cancel_left h⟩

theorem makeLastName_eq_some {num : ℤ} {s : CString 16} (h : makeLastName num = some s) :
    (0 ≤ num ∧ num ≤ 999) ∧ ∃ a b c, syllables[(num / 100).toNat]? = some a ∧
      syllables[(num / 10 % 10).toNat]? = some b ∧ syllables[(num % 10).toNat]? = some c ∧ s.chars = a ++ (b ++ c) := by
  obtain ⟨_, hguard, h⟩ := Option.bind_eq_some_iff.mp h
  obtain ⟨name, hname, h⟩ := Option.bind_eq_some_iff.mp h
  have hrange : 0 ≤ num ∧ num ≤ 999 := by
    by_contra hout
    simp [guard, hout] at hguard
  obtain ⟨a, name₁, ha, hname₁, rfl⟩ := List.forall₂_cons_left_iff.mp (forall₂_of_mapM hname)
  obtain ⟨b, name₂, hb, hname₂, rfl⟩ := List.forall₂_cons_left_iff.mp hname₁
  obtain ⟨c, name₃, hc, hname₃, rfl⟩ := List.forall₂_cons_left_iff.mp hname₂
  obtain rfl := List.forall₂_nil_left_iff.mp hname₃
  refine ⟨hrange, a, b, c, ha, hb, hc, ?_⟩
  rw [CString.strcpy_eq_some h]
  simp

/-- **Different numbers make different names.** -/
theorem makeLastName_inj {num num' : ℤ} {s : CString 16} (h : makeLastName num = some s)
    (h' : makeLastName num' = some s) : num = num' := by
  obtain ⟨hrange, a, b, c, ha, hb, hc, hs⟩ := makeLastName_eq_some h
  obtain ⟨hrange', a', b', c', ha', hb', hc', hs'⟩ := makeLastName_eq_some h'
  obtain ⟨h₁, hrest⟩ := syllable_append_inj ha ha' (hs.symm.trans hs')
  obtain ⟨h₂, hrest⟩ := syllable_append_inj hb hb' hrest
  have h₃ := (syllable_append_inj (x := []) (y := []) hc hc' (by rw [hrest])).1
  omega

namespace RandomGenerator

variable (random : RandomGenerator) {fair : Prop}

theorem draw_yields {lower upper : ℤ} (h : lower ≤ upper) :
    (random.draw lower upper).Yields fair fun a => lower ≤ a ∧ a ≤ upper where
  result {n n' a} hx := by
    obtain ⟨rfl, -⟩ := Prod.mk.inj (Option.some.inj hx)
    exact ⟨random.lower_le n h, random.le_upper n h⟩
  ends _ _ := rfl

/-- What is drawn is an answer. -/
theorem draw_answers (lower upper : ℤ) :
    (random.draw lower upper).Yields fair fun a => ∃ n, a = random.number n lower upper where
  result {n n' a} hx := by
    obtain ⟨rfl, -⟩ := Prod.mk.inj (Option.some.inj hx)
    exact ⟨n, rfl⟩
  ends _ _ := rfl

/-- **Every number of the range** is given within so many tries. -/
def Covers (tries : ℕ) (lower upper : ℤ) : Prop :=
  ∀ n i, lower ≤ i → i ≤ upper → ∃ m < tries, random.number (n + m) lower upper = i

/-- A generator whose answers go round in the range. A range that ends at `top` is answered with
its end. -/
def cycle (top : ℤ) : RandomGenerator where
  number n lower upper :=
    if upper = top then upper else if lower ≤ upper then lower + (n : ℤ) % (upper - lower + 1) else lower
  cValues := ⟨0, 0, 0⟩
  lower_le n lower upper h := by
    split
    · exact h
    · have := Int.emod_nonneg (n : ℤ) (show upper - lower + 1 ≠ 0 by omega)
      omega
  le_upper n lower upper h := by
    split
    · exact Int.le_refl upper
    · have := Int.emod_lt_of_pos (n : ℤ) (show 0 < upper - lower + 1 by omega)
      omega

/-- Once round gives every number. -/
theorem cycle_covers {top lower upper : ℤ} (htop : upper ≠ top) {tries : ℕ} (h : upper - lower < tries) :
    (cycle top).Covers tries lower upper := by
  intro n i hlower hupper
  have hpos : 0 < upper - lower + 1 := by omega
  have h₀ := Int.emod_nonneg (i - lower - n) (Int.ne_of_gt hpos)
  have h₁ := Int.emod_lt_of_pos (i - lower - n) hpos
  refine ⟨((i - lower - n) % (upper - lower + 1)).toNat, by omega, ?_⟩
  have hmod : ((n + ((i - lower - n) % (upper - lower + 1)).toNat : ℕ) : ℤ) % (upper - lower + 1) = i - lower := by
    rw [Int.natCast_add, Int.toNat_of_nonneg h₀, Int.add_emod_emod, Int.add_comm, Int.sub_add_cancel]
    exact Int.emod_eq_of_lt (by omega) (by omega)
  show (if upper = top then upper else if lower ≤ upper then _ else lower) = i
  rw [if_neg htop, if_pos (by omega), hmod, Int.add_comm, Int.sub_add_cancel]

theorem generateString_yields {n : ℕ} {lowerLength upperLength : ℤ} (h₀ : 0 ≤ lowerLength)
    (h : lowerLength ≤ upperLength) (hn : upperLength ≤ n) (base : Char) {num : ℤ} (hnum : 1 ≤ num) :
    (random.generateString n lowerLength upperLength base num).Yields fair fun s =>
      lowerLength ≤ s.chars.length ∧ (s.chars.length : ℤ) ≤ upperLength := by
  rw [generateString]
  refine (random.draw_yields h).bind fun length hlength => ?_
  refine (Rx.Yields.mapM (J := fun _ => True) fun _ _ => ?_).bind fun s hs => ?_
  · exact (random.draw_yields (by omega)).bind fun c _ => Rx.Yields.pure trivial
  · rw [List.length_range] at hs
    have hlen := hs.1
    refine (Rx.Yields.lift fun _ => CString.strcpy_isSome (by omega)).mono fun s' hs' => ?_
    rw [CString.strcpy_eq_some hs']
    omega

theorem astring_yields {n : ℕ} {lowerLength upperLength : ℤ} (h₀ : 0 ≤ lowerLength)
    (h : lowerLength ≤ upperLength) (hn : upperLength ≤ n) :
    (random.astring n lowerLength upperLength).Yields fair fun s =>
      lowerLength ≤ s.chars.length ∧ (s.chars.length : ℤ) ≤ upperLength :=
  random.generateString_yields h₀ h hn _ (by decide)

theorem nstring_yields {n : ℕ} {lowerLength upperLength : ℤ} (h₀ : 0 ≤ lowerLength)
    (h : lowerLength ≤ upperLength) (hn : upperLength ≤ n) :
    (random.nstring n lowerLength upperLength).Yields fair fun s =>
      lowerLength ≤ s.chars.length ∧ (s.chars.length : ℤ) ≤ upperLength :=
  random.generateString_yields h₀ h hn _ (by decide)

theorem fixedPoint_yields {F : Type} [Money F] (digits : ℕ) (lower upper : ℚ) :
    (random.fixedPoint (F := F) digits lower upper).Yields fair fun _ => True :=
  Rx.Yields.bind (J := fun _ => True) ⟨fun _ => trivial, fun _ _ => rfl⟩ fun _ _ => Rx.Yields.pure trivial

theorem draw_takes (lower upper : ℤ) : (random.draw lower upper).Takes 1 := fun n n' a h => by
  obtain ⟨-, rfl⟩ := Prod.mk.inj (Option.some.inj h)
  exact ⟨Nat.le_succ n, le_rfl⟩

/-- Characters are drawn one after the other. -/
theorem mapM_draw {ι γ : Type} (h : ℤ → γ) (lower upper : ℤ) (is : List ι) (n : ℕ) :
    (is.mapM (fun _ => do
      let c ← random.draw lower upper
      return h c) : Rx (List γ)) n =
      some ((List.range is.length).map fun i => h (random.number (n + i) lower upper), n + is.length) := by
  induction is generalizing n with
  | nil => rfl
  | cons i is ih =>
    have hone : (do
      let c ← random.draw lower upper
      return h c : Rx γ) n = some (h (random.number n lower upper), n + 1) := rfl
    rw [List.mapM_cons, bind_apply, hone, Option.bind_some, bind_apply, ih, Option.bind_some, pure_apply,
      List.length_cons, List.range_succ_eq_map, List.map_cons, List.map_map]
    have hnext : ∀ i : ℕ, n + 1 + i = n + (i + 1) := fun i => by omega
    simp only [hnext, Function.comp_def, Nat.add_zero, Nat.succ_eq_add_one]

/-- **What a string is made of.** -/
theorem generateString_eq_some {n : ℕ} {lowerLength upperLength : ℤ} {base : Char} {num : ℤ} {m m' : ℕ}
    {s : CString n} (h : random.generateString n lowerLength upperLength base num m = some (s, m')) :
    m' = m + 1 + (random.number m lowerLength upperLength).toNat ∧
      s.chars = (List.range (random.number m lowerLength upperLength).toNat).map fun i =>
        Char.ofNat (base.toNat + (random.number (m + 1 + i) 0 (num - 1)).toNat) := by
  rw [generateString] at h
  obtain ⟨length, m₁, hlength, h⟩ := bind_eq_some h
  obtain ⟨rfl, rfl⟩ := Prod.mk.inj (Option.some.inj hlength)
  obtain ⟨cs, m₂, hcs, h⟩ := bind_eq_some h
  rw [random.mapM_draw (fun c => Char.ofNat (base.toNat + c.toNat))] at hcs
  obtain ⟨rfl, rfl⟩ := Prod.mk.inj (Option.some.inj hcs)
  obtain ⟨hs, rfl⟩ := lift_eq_some h
  rw [List.length_range] at hs
  exact ⟨by rw [List.length_range], CString.strcpy_eq_some hs⟩

/-- The letters of `astring` are lower case. -/
def Lower (s : List Char) : Prop := ∀ c ∈ s, 'a'.toNat ≤ c.toNat

theorem astring_lower {n : ℕ} {lowerLength upperLength : ℤ} {m m' : ℕ} {s : CString n}
    (h : random.astring n lowerLength upperLength m = some (s, m')) : Lower s.chars := by
  have hchar : ∀ k ≤ 25, 'a'.toNat ≤ (Char.ofNat ('a'.toNat + k)).toNat := fun k hk => by
    have ha : 'a'.toNat < 0xd000 := by decide
    rw [toNat_ofNat_of_lt (n := 'a'.toNat + k) (by omega)]
    exact Nat.le_add_right _ _
  obtain ⟨-, hs⟩ := random.generateString_eq_some h
  rw [hs]
  intro c hc
  obtain ⟨i, -, rfl⟩ := List.mem_map.mp hc
  have hle := random.le_upper (m + 1 + i) (show (0 : ℤ) ≤ 26 - 1 by decide)
  exact hchar _ (by omega)

theorem generateString_takes (n : ℕ) {lowerLength upperLength : ℤ} (h : lowerLength ≤ upperLength) (base : Char)
    (num : ℤ) : (random.generateString n lowerLength upperLength base num).Takes (1 + upperLength.toNat) := by
  intro m m' s hs
  obtain ⟨rfl, -⟩ := random.generateString_eq_some hs
  have := random.le_upper m h
  omega

theorem astring_takes (n : ℕ) {lowerLength upperLength : ℤ} (h : lowerLength ≤ upperLength) :
    (random.astring n lowerLength upperLength).Takes (1 + upperLength.toNat) := random.generateString_takes n h _ _

theorem nstring_takes (n : ℕ) {lowerLength upperLength : ℤ} (h : lowerLength ≤ upperLength) :
    (random.nstring n lowerLength upperLength).Takes (1 + upperLength.toNat) := random.generateString_takes n h _ _

theorem lastName_takes (maxCid : ℤ) : (random.lastName maxCid).Takes 2 := by
  rw [lastName, nuRand]
  exact ((Rx.Takes.lift _).bind fun _ => (random.draw_takes _ _).bind fun _ => (random.draw_takes _ _).bind fun _ =>
    (Rx.Takes.lift _).bind fun _ => (Rx.Takes.assert _).bind fun _ => Rx.Takes.pure _).bind fun _ => Rx.Takes.lift _

/-- The first six letters of a name, drawn from some number on. -/
def Spells (n : ℕ) (s : List Char) : Prop :=
  ∀ j < 6, s[j]? = some (Char.ofNat ('a'.toNat + (random.number (n + j) 0 25).toNat))

/-- The constant of `NURand` that belongs to a range. -/
def constant (a : ℤ) : Option ℤ :=
  if a = 255 then some random.cValues.cLast
  else if a = 1023 then some random.cValues.cId
  else if a = 8191 then some random.cValues.olIId
  else none

/-- **The sums of `NURand`** for a range fit, whatever is drawn. -/
def SumsFit (a x y : ℤ) : Prop :=
  ∀ c, random.constant a = some c → ∀ left right : ℕ, (left : ℤ) ≤ a → x ≤ right → (right : ℤ) ≤ y →
    ((left ||| right : ℕ) : ℤ) + c < 2147483648

/-- A small constant leaves room. -/
theorem sumsFit_of_le {a x y c : ℤ} {e : ℕ} (hc : random.constant a = some c) (ha : a < 2 ^ e) (hy : y < 2 ^ e)
    (hle : c + 2 ^ e ≤ 2147483648) : random.SumsFit a x y := by
  intro c' hc' left right hleft _ hright
  obtain rfl := Option.some.inj (hc.symm.trans hc')
  have hor : left ||| right < 2 ^ e := Nat.or_lt_two_pow (by zify; omega) (by zify; omega)
  zify at hor
  omega

/-- Of numbers that are not negative, the bits are those of natural numbers. -/
theorem lor_of_nonneg {left right : ℤ} (hleft : 0 ≤ left) (hright : 0 ≤ right) :
    left.lor right = ((left.toNat ||| right.toNat : ℕ) : ℤ) := by
  obtain ⟨l, rfl⟩ := Int.eq_ofNat_of_zero_le hleft
  obtain ⟨r, rfl⟩ := Int.eq_ofNat_of_zero_le hright
  rfl

/-- **`NURand` stays in its range**, when its constant is not negative. -/
theorem nuRand_yields {a x y c : ℤ} (hc : random.constant a = some c) (ha : 0 ≤ a) (hx : 0 ≤ x) (h : x ≤ y)
    (hfair : fair → 0 ≤ c ∧ random.SumsFit a x y) :
    (random.nuRand a x y).Yields fair fun r => 0 ≤ c → x ≤ r ∧ r ≤ y := by
  rw [nuRand]
  refine Rx.Yields.bind (J := fun c' => c' = c) ?_ fun c' hc' => ?_
  · refine (Rx.Yields.lift (o := random.constant a) fun _ => by rw [hc]; rfl).mono fun c' hc' => ?_
    exact (Option.some.inj (hc.symm.trans hc')).symm
  · subst hc'
    refine (random.draw_yields ha).bind fun left hleft => (random.draw_yields h).bind fun right hright => ?_
    rw [lor_of_nonneg hleft.1 (hx.trans hright.1)]
    refine (Rx.Yields.lift fun hf => ?_).bind fun sum hsum => (Rx.Yields.assert fun _ => ?_).bind fun _ _ =>
      Rx.Yields.pure fun hnonneg => ?_
    · obtain ⟨hnonneg, hfits⟩ := hfair hf
      have hlt := hfits c' hc left.toNat right.toNat (by omega) (by omega) (by omega)
      rw [Overflow.int32_of_fits _ (by omega) hlt]
      rfl
    · omega
    · obtain ⟨rfl, -⟩ := Overflow.checked_eq_some hsum
      have hsum : 0 ≤ ((left.toNat ||| right.toNat : ℕ) : ℤ) + c' := by omega
      have h₁ := Int.tmod_nonneg (y - x + 1) hsum
      have h₂ := Int.tmod_lt_of_pos (((left.toNat ||| right.toNat : ℕ) : ℤ) + c') (show 0 < y - x + 1 by omega)
      omega

/-- **The last names** of the customers up to some id. -/
theorem lastName_yields {maxCid : ℤ} (h : 1 ≤ maxCid)
    (hfair : fair → 0 ≤ random.cValues.cLast ∧ random.SumsFit 255 0 (min 999 (maxCid - 1))) :
    (random.lastName maxCid).Yields fair fun s =>
      ∃ num, makeLastName num = some s ∧ (fair → 0 ≤ num ∧ num ≤ min 999 (maxCid - 1)) := by
  rw [lastName]
  refine (random.nuRand_yields (c := random.cValues.cLast) rfl (by decide) le_rfl (by omega) hfair).bind
    fun num hnum => ?_
  refine (Rx.Yields.lift fun hf => ?_).mono fun s hs => ⟨num, hs, fun hf => hnum (hfair hf).1⟩
  obtain ⟨h₀, h₁⟩ := hnum (hfair hf).1
  exact makeLastName_isSome h₀ (by omega)

/-- `swap` exchanges. -/
theorem swap_eq (array : List ℤ) (i index : ℕ) : swap array i index = Shuffle.exchange array i index := rfl

/-- **A permutation** of the range. -/
theorem makePermutation_yields {lower upper : ℤ} (h : lower ≤ upper) :
    (random.makePermutation lower upper).Yields fair fun array =>
      array.Perm ((List.range (upper - lower + 1).toNat).map fun i : ℕ => lower + i) := by
  rw [makePermutation]
  refine Rx.Yields.foldlM_range (I := fun _ (array : List ℤ) =>
    array.Perm ((List.range (upper - lower + 1).toNat).map fun i : ℕ => lower + i)) ?_ (List.Perm.refl _)
  intro i hi array hperm
  have hlen := hperm.length_eq
  rw [List.length_map, List.length_range] at hlen
  refine (random.draw_yields (by omega)).bind fun index hindex => ?_
  rw [swap_eq]
  refine (Rx.Yields.lift fun _ => ?_).mono fun array' h => (Shuffle.exchange_perm h).trans hperm
  exact Option.isSome_iff_exists.mpr (Shuffle.exists_exchange (by omega) (by omega))

end RandomGenerator

end TpccBench
