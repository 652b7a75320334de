import TpccBench.Load.Permutation

/-!
# Constants of the non-uniform distribution

`NURand` adds a constant to the bitwise or of two numbers. The constant only turns the distribution: a number comes
as often as the one that is as much farther on, round the range, as the constant is greater
(`TpccBench.RandomGenerator.nuRand_turns`). For a run, `makeRandomForRun` draws the constant for last names again and
again until it differs from the one that the tables were loaded with as the benchmark demands
(`TpccBench.NURandC.makeRandomForRun_iff`); whatever that one is, at least 53 of the 256 answers will do.
-/

namespace TpccBench

open Prog

namespace NURandC

variable (generator : RandomGenerator)

/-- `NURandC::makeRandom`. -/
def makeRandom : Rx NURandC := do
  let cLast ← generator.draw 0 255
  let cId ← generator.draw 0 1023
  let olIId ← generator.draw 0 8191
  return ⟨cLast, cId, olIId⟩

/-- `validCRun`. -/
def validCRun (cRun cLoad : ℤ) : Prop :=
  65 ≤ |cRun - cLoad| ∧ |cRun - cLoad| ≤ 119 ∧ |cRun - cLoad| ≠ 96 ∧ |cRun - cLoad| ≠ 112

instance (cRun cLoad : ℤ) : Decidable (validCRun cRun cLoad) := inferInstanceAs (Decidable (_ ∧ _))

/-- The loop of `makeRandomForRun`, with so many tries. -/
def redraw (cLoad : ℤ) : ℕ → ℤ → Rx ℤ
  | 0, cLast => do
    assert (validCRun cLast cLoad)
    return cLast
  | tries + 1, cLast => do
    if validCRun cLast cLoad then return cLast
    else do
      let cLast ← generator.draw 0 255
      redraw cLoad tries cLast

/-- `NURandC::makeRandomForRun`. -/
def makeRandomForRun (tries : ℕ) (cLoad : NURandC) : Rx NURandC := do
  let c ← makeRandom generator
  let cLast ← redraw generator cLoad.cLast tries c.cLast
  assert (validCRun cLast cLoad.cLast)
  return { c with cLast := cLast }

/-! ### Constants for a run -/

variable {cLoad cLast c : ℤ} {tries n n' : ℕ}

/-- The constants for last names that are drawn: the one of `makeRandom`, which draws three numbers, and those after
it. -/
def candidate (n : ℕ) : ℕ → ℤ
  | 0 => generator.number n 0 255
  | k + 1 => generator.number (n + 3 + k) 0 255

/-- **The loop gives the first one that is valid.** -/
theorem redraw_iff (candidates : ℕ → ℤ) (h : ∀ k, candidates (k + 1) = generator.number (n + k) 0 255) :
    redraw generator cLoad tries (candidates 0) n = some (c, n') ↔
      ∃ k ≤ tries, validCRun (candidates k) cLoad ∧ (∀ j < k, ¬validCRun (candidates j) cLoad) ∧
        c = candidates k ∧ n' = n + k := by
  induction tries generalizing candidates n with
  | zero =>
    rw [redraw, bind_apply, Prog.assert]
    by_cases hvalid : validCRun (candidates 0) cLoad
    · rw [if_pos hvalid, Option.bind_some, pure_apply, Option.some.injEq, Prod.mk.injEq]
      constructor
      · rintro ⟨rfl, rfl⟩
        exact ⟨0, le_rfl, hvalid, fun j hj => absurd hj (Nat.not_lt_zero j), rfl, rfl⟩
      · rintro ⟨k, hk, -, -, rfl, rfl⟩
        obtain rfl := Nat.le_zero.mp hk
        exact ⟨rfl, rfl⟩
    · rw [if_neg hvalid]
      constructor
      · intro hnone
        exact absurd hnone (Option.some_ne_none _).symm
      · rintro ⟨k, hk, hk', -⟩
        obtain rfl := Nat.le_zero.mp hk
        exact absurd hk' hvalid
  | succ tries ih =>
    rw [redraw]
    by_cases hvalid : validCRun (candidates 0) cLoad
    · rw [if_pos hvalid, pure_apply, Option.some.injEq, Prod.mk.injEq]
      constructor
      · rintro ⟨rfl, rfl⟩
        exact ⟨0, Nat.zero_le _, hvalid, fun j hj => absurd hj (Nat.not_lt_zero j), rfl, rfl⟩
      · rintro ⟨k, -, -, hfirst, rfl, rfl⟩
        cases k with
        | zero => exact ⟨rfl, rfl⟩
        | succ k => exact absurd hvalid (hfirst 0 (Nat.succ_pos k))
    · -- the next one is drawn
      have hnext : generator.number n 0 255 = candidates (0 + 1) := (h 0).symm
      rw [if_neg hvalid, bind_apply, RandomGenerator.draw, Option.bind_some, hnext]
      rw [ih (fun k => candidates (k + 1)) fun k => by rw [h (k + 1), Nat.add_right_comm, Nat.add_assoc]]
      constructor
      · rintro ⟨k, hk, hk', hfirst, rfl, rfl⟩
        refine ⟨k + 1, by omega, hk', ?_, rfl, by omega⟩
        intro j hj
        cases j with
        | zero => exact hvalid
        | succ j => exact hfirst j (by omega)
      · rintro ⟨k, hk, hk', hfirst, rfl, rfl⟩
        cases k with
        | zero => exact absurd hk' hvalid
        | succ k => exact ⟨k, by omega, hk', fun j hj => hfirst (j + 1) (by omega), rfl, by omega⟩

/-- The distances that are valid. -/
noncomputable def validDeltas : Finset ℤ := (Finset.Icc 65 119).filter fun d => d ≠ 96 ∧ d ≠ 112

theorem card_validDeltas : validDeltas.card = 53 := by decide

/-- **Enough constants are valid**, on one side of the other constant at least. -/
theorem card_validCRun (h₀ : 0 ≤ cLoad) (h : cLoad ≤ 255) :
    53 ≤ ((Finset.Icc 0 255).filter fun cRun => validCRun cRun cLoad).card := by
  have hside : ∀ s : ℤ, (s = 1 ∨ s = -1) → (∀ d ∈ validDeltas, 0 ≤ cLoad + s * d ∧ cLoad + s * d ≤ 255) →
      53 ≤ ((Finset.Icc 0 255).filter fun cRun => validCRun cRun cLoad).card := by
    intro s hs hrange
    rw [← card_validDeltas]
    refine Finset.card_le_card_of_injOn (fun d => cLoad + s * d) ?_ ?_
    · intro d hd
      have hd' := Finset.mem_coe.mp hd
      have hin := hrange d hd'
      simp only [validDeltas, Finset.mem_filter, Finset.mem_Icc] at hd'
      refine Finset.mem_coe.mpr (Finset.mem_filter.mpr ⟨Finset.mem_Icc.mpr hin, ?_⟩)
      have hdelta : |cLoad + s * d - cLoad| = d := by
        rw [add_sub_cancel_left, abs_mul, abs_of_nonneg (by omega : 0 ≤ d)]
        rcases hs with rfl | rfl <;> simp
      rw [validCRun, hdelta]
      exact ⟨hd'.1.1, hd'.1.2, hd'.2⟩
    · intro d _ e _ heq
      rcases hs with rfl | rfl
      · dsimp only at heq
        omega
      · dsimp only at heq
        omega
  rcases le_total 119 cLoad with hlow | hlow
  · refine hside (-1) (Or.inr rfl) fun d hd => ?_
    simp only [validDeltas, Finset.mem_filter, Finset.mem_Icc] at hd
    omega
  · refine hside 1 (Or.inl rfl) fun d hd => ?_
    simp only [validDeltas, Finset.mem_filter, Finset.mem_Icc] at hd
    omega

theorem makeRandomForRun_eq_some {cLoad c : NURandC} :
    makeRandomForRun generator tries cLoad n = some (c, n') ↔
      ∃ k ≤ tries, validCRun (candidate generator n k) cLoad.cLast ∧
        (∀ j < k, ¬validCRun (candidate generator n j) cLoad.cLast) ∧
        c = ⟨candidate generator n k, generator.number (n + 1) 0 1023, generator.number (n + 2) 0 8191⟩ ∧
        n' = n + 3 + k := by
  have hdrawn : makeRandom generator n = some (⟨candidate generator n 0, generator.number (n + 1) 0 1023,
      generator.number (n + 2) 0 8191⟩, n + 3) := rfl
  rw [makeRandomForRun, bind_apply, hdrawn, Option.bind_some]
  constructor
  · intro h
    obtain ⟨cLast, n₁, hredraw, h⟩ := bind_eq_some h
    obtain ⟨_, n₂, hassert, h⟩ := bind_eq_some h
    obtain ⟨-, rfl⟩ := assert_eq_some hassert
    obtain ⟨rfl, rfl⟩ := Prod.mk.inj (Option.some.inj h)
    obtain ⟨k, hk, hvalid, hfirst, rfl, rfl⟩ := (redraw_iff generator (candidate generator n) fun _ => rfl).mp hredraw
    exact ⟨k, hk, hvalid, hfirst, rfl, rfl⟩
  · rintro ⟨k, hk, hvalid, hfirst, rfl, rfl⟩
    have hredraw := (redraw_iff generator (candidate generator n) (n := n + 3) fun _ => rfl).mpr
      ⟨k, hk, hvalid, hfirst, rfl, rfl⟩
    rw [bind_apply, hredraw, Option.bind_some, bind_apply, Prog.assert, if_pos hvalid]
    rfl

/-- **Constants for a run.** The constant for last names is the first one drawn that is valid, the others are drawn
once. There is a result exactly if a valid one comes in time; and of the answers of `number` at least 53 are valid,
whatever constant the tables were loaded with. -/
theorem makeRandomForRun_iff (cLoad c : NURandC) (tries n n' : ℕ) :
    (makeRandomForRun generator tries cLoad n = some (c, n') ↔
      ∃ k ≤ tries, validCRun (candidate generator n k) cLoad.cLast ∧
        (∀ j < k, ¬validCRun (candidate generator n j) cLoad.cLast) ∧
        c = ⟨candidate generator n k, generator.number (n + 1) 0 1023, generator.number (n + 2) 0 8191⟩ ∧
        n' = n + 3 + k) ∧
      (0 ≤ cLoad.cLast → cLoad.cLast ≤ 255 →
        53 ≤ ((Finset.Icc 0 255).filter fun cRun => validCRun cRun cLoad.cLast).card) :=
  ⟨makeRandomForRun_eq_some generator, card_validCRun⟩

/-- **The ranges of the constants.** -/
structure Drawn (c : NURandC) : Prop where
  cLast : 0 ≤ c.cLast ∧ c.cLast ≤ 255
  cId : 0 ≤ c.cId ∧ c.cId ≤ 1023
  olIId : 0 ≤ c.olIId ∧ c.olIId ≤ 8191

theorem number_drawn (n : ℕ) {upper : ℤ} (h : 0 ≤ upper) :
    0 ≤ generator.number n 0 upper ∧ generator.number n 0 upper ≤ upper :=
  ⟨generator.lower_le n h, generator.le_upper n h⟩

theorem makeRandom_drawn {c : NURandC} (h : makeRandom generator n = some (c, n')) : c.Drawn := by
  obtain ⟨rfl, -⟩ := Prod.mk.inj (Option.some.inj h)
  exact ⟨number_drawn generator _ (by norm_num), number_drawn generator _ (by norm_num),
    number_drawn generator _ (by norm_num)⟩

theorem makeRandomForRun_drawn {cLoad c : NURandC} (h : makeRandomForRun generator tries cLoad n = some (c, n')) :
    c.Drawn := by
  obtain ⟨k, -, -, -, rfl, -⟩ := (makeRandomForRun_eq_some generator).mp h
  refine ⟨?_, number_drawn generator _ (by norm_num), number_drawn generator _ (by norm_num)⟩
  cases k with
  | zero => exact number_drawn generator n (by norm_num)
  | succ k => exact number_drawn generator (n + 3 + k) (by norm_num)

/-- The first try is refused, the second one is taken. -/
theorem makeRandomForRun_iff_second :
    (makeRandomForRun (RandomGenerator.choosing [1, 0, 0, 100]) 1 ⟨0, 0, 0⟩ 0).isSome := by
  have h := (makeRandomForRun_iff (RandomGenerator.choosing [1, 0, 0, 100]) ⟨0, 0, 0⟩ ⟨100, 0, 0⟩ 1 0 4).1.mpr
    ⟨1, le_rfl, by decide, by decide, rfl, rfl⟩
  rw [h]
  rfl

end NURandC

/-! ### What a constant does -/

namespace RandomGenerator

variable {random random' : RandomGenerator} {a x y c c' i : ℤ}

/-- What `NURand` gives, if `number` answers with these. -/
def skewed (random : RandomGenerator) (a x y : ℤ) (answers : ℤ × ℤ) : Option ℤ :=
  (({ choosing [answers.1, answers.2] with cValues := random.cValues } : RandomGenerator).nuRand a x y 0).map Prod.fst

/-- **How many pairs of answers** give a number. -/
noncomputable def skewTally (random : RandomGenerator) (a x y i : ℤ) : ℕ :=
  ((Finset.Icc 0 a ×ˢ Finset.Icc x y).filter fun answers => random.skewed a x y answers = some i).card

/-- The bitwise or of two answers. -/
def orOf (answers : ℤ × ℤ) : ℤ := (answers.1.toNat ||| answers.2.toNat : ℕ)

/-- **What `NURand` computes.** -/
theorem skewed_eq (hc : random.constant a = some c) (hnonneg : 0 ≤ c) (hfits : random.SumsFit a x y) (hx : 0 ≤ x)
    {answers : ℤ × ℤ} (h : answers ∈ Finset.Icc 0 a ×ˢ Finset.Icc x y) :
    random.skewed a x y answers = some ((orOf answers + c) % (y - x + 1) + x) := by
  obtain ⟨left, right⟩ := answers
  simp only [Finset.mem_product, Finset.mem_Icc] at h
  obtain ⟨⟨hleft, hleft'⟩, hright, hright'⟩ := h
  have hsum := hfits c hc left.toNat right.toNat (by omega) (by omega) (by omega)
  have hor : (0 : ℤ) ≤ ((left.toNat ||| right.toNat : ℕ) : ℤ) := Int.natCast_nonneg _
  have hfirst : (choosing [left, right]).number 0 0 a = left := if_pos ⟨hleft, hleft'⟩
  have hsecond : (choosing [left, right]).number 1 x y = right := if_pos ⟨hright, hright'⟩
  have hmod : (((left.toNat ||| right.toNat : ℕ) : ℤ) + c).tmod (y - x + 1) = (orOf (left, right) + c) % (y - x + 1) :=
    Int.tmod_eq_emod_of_nonneg (by omega)
  have hlor := lor_of_nonneg hleft (hx.trans hright)
  have hconstant : (({ choosing [left, right] with cValues := random.cValues } : RandomGenerator).constant a) =
      some c := hc
  rw [skewed, nuRand]
  rw [constant] at hconstant
  dsimp only at hconstant ⊢
  rw [hconstant, bind_apply, lift_apply, Option.map_some, Option.bind_some]
  rw [bind_apply, draw, Option.bind_some, bind_apply, draw, Option.bind_some, hfirst, hsecond, bind_apply,
    lift_apply, hlor, Overflow.int32_of_fits _ (by omega) hsum, Option.map_some, Option.bind_some, bind_apply, assert,
    if_pos (by omega), Option.bind_some, hmod]
  rfl

/-- Every number of the range comes from some pair of answers. -/
theorem skewTally_pos (hc : random.constant a = some c) (hnonneg : 0 ≤ c) (hfits : random.SumsFit a x y) (ha : 0 ≤ a)
    (hx : 0 ≤ x) (hi : x ≤ i) (hi' : i ≤ y) : 0 < random.skewTally a x y i := by
  have hsize : 0 < y - x + 1 := by omega
  have h₀ := Int.emod_nonneg (i - x - c - x) hsize.ne'
  have h₁ := Int.emod_lt_of_pos (i - x - c - x) hsize
  -- the first answer is zero, the second one is as far before the number as the constant says
  have hmem : ((0 : ℤ), x + (i - x - c - x) % (y - x + 1)) ∈ Finset.Icc 0 a ×ˢ Finset.Icc x y := by
    simp only [Finset.mem_product, Finset.mem_Icc]
    omega
  have hor : orOf ((0 : ℤ), x + (i - x - c - x) % (y - x + 1)) = x + (i - x - c - x) % (y - x + 1) := by
    rw [orOf, Int.toNat_zero, Nat.zero_or, Int.toNat_of_nonneg (by omega)]
  refine Finset.card_pos.mpr ⟨_, Finset.mem_filter.mpr ⟨hmem, ?_⟩⟩
  rw [skewed_eq hc hnonneg hfits hx hmem, hor]
  have hmod : (x + (i - x - c - x) % (y - x + 1) + c) % (y - x + 1) = i - x := by
    rw [show x + (i - x - c - x) % (y - x + 1) + c = (x + c) + (i - x - c - x) % (y - x + 1) by ring,
      Int.add_emod_emod, show x + c + (i - x - c - x) = i - x by ring]
    exact Int.emod_eq_of_lt (by omega) (by omega)
  rw [hmod, Int.sub_add_cancel]

/-- **The constant turns the distribution.** Every number of the range comes, whatever the constant is; and with
another constant the number that is as much farther on, round the range, comes from exactly as many pairs of
answers. -/
theorem nuRand_turns (hc : random.constant a = some c) (hc' : random'.constant a = some c') (hnonneg : 0 ≤ c)
    (hnonneg' : 0 ≤ c') (hfits : random.SumsFit a x y) (hfits' : random'.SumsFit a x y) (ha : 0 ≤ a) (hx : 0 ≤ x)
    (hi : x ≤ i) (hi' : i ≤ y) :
    0 < random.skewTally a x y i ∧
      random'.skewTally a x y (x + (i - x + (c' - c)) % (y - x + 1)) = random.skewTally a x y i := by
  refine ⟨skewTally_pos hc hnonneg hfits ha hx hi hi', ?_⟩
  rw [skewTally, skewTally]
  refine congrArg Finset.card (Finset.filter_congr fun answers h => ?_)
  rw [skewed_eq hc hnonneg hfits hx h, skewed_eq hc' hnonneg' hfits' hx h, Option.some.injEq, Option.some.injEq]
  generalize orOf answers = v
  have hrange : i - x = (i - x) % (y - x + 1) := (Int.emod_eq_of_lt (by omega) (by omega)).symm
  constructor
  · intro heq
    have hmod : (v + c') % (y - x + 1) = (i - x + (c' - c)) % (y - x + 1) := by omega
    have hback : (v + c) % (y - x + 1) = (i - x) % (y - x + 1) := by
      have hsub := Int.ModEq.sub_right (c' - c) (show v + c' ≡ i - x + (c' - c) [ZMOD y - x + 1] from hmod)
      rw [add_sub_cancel_right, show v + c' - (c' - c) = v + c by ring] at hsub
      exact hsub
    omega
  · intro heq
    have hmod : v + c ≡ i - x [ZMOD y - x + 1] := by
      rw [Int.ModEq, ← hrange]
      omega
    have hadd := Int.ModEq.add_right (c' - c) hmod
    rw [show v + c + (c' - c) = v + c' by ring] at hadd
    rw [Int.ModEq] at hadd
    omega

/-- The numbers of the last names, when the tables were loaded with the constant zero and the run has a hundred. -/
theorem nuRand_turns_names :
    ({ choosing [] with cValues := ⟨100, 0, 0⟩ } : RandomGenerator).skewTally 255 0 999 99 =
      (choosing []).skewTally 255 0 999 999 := by
  have hload : (choosing []).SumsFit 255 0 999 :=
    sumsFit_of_le (c := 0) (e := 10) _ rfl (by decide) (by decide) (by decide)
  have hrun : ({ choosing [] with cValues := ⟨100, 0, 0⟩ } : RandomGenerator).SumsFit 255 0 999 :=
    sumsFit_of_le (c := 100) (e := 10) _ rfl (by decide) (by decide) (by decide)
  have hcLoad : (choosing []).constant 255 = some 0 := rfl
  have hcRun : ({ choosing [] with cValues := ⟨100, 0, 0⟩ } : RandomGenerator).constant 255 = some 100 := rfl
  have hturned := (nuRand_turns hcLoad hcRun le_rfl (by decide) hload hrun (by decide) le_rfl
    (show (0 : ℤ) ≤ 999 by decide) le_rfl).2
  have hplace : (0 : ℤ) + (999 - 0 + (100 - 0)) % (999 - 0 + 1) = 99 := by decide
  rw [hplace] at hturned
  exact hturned

end RandomGenerator

end TpccBench
