import TpccBench.Load.References

/-!
# The orders of the customers

The customers of a district's orders are a permutation that is made by exchanges. Each permutation
comes of exactly one sequence of numbers drawn (`TpccBench.TPCCGenerator.makePermutation_bijOn`), so
none is preferred, and each customer has one order.
-/

namespace TpccBench

open Prog

/-! ### What is chosen -/

/-- The sequences that may be drawn: at each position but the last, a number from it on. -/
def Choices (top : ℤ) : Set (List ℤ) :=
  {choices | choices.length = top.toNat ∧ ∀ (i : ℕ) (c : ℤ), choices[i]? = some c → i ≤ c ∧ c ≤ top}

/-- The numbers from `lower` to `upper`. -/
def interval (lower upper : ℤ) : List ℤ := (List.range (upper - lower + 1).toNat).map fun i : ℕ => lower + i

theorem nodup_interval (lower upper : ℤ) : (interval lower upper).Nodup :=
  List.nodup_range.map fun i j h => by simpa using h

theorem length_interval (lower upper : ℤ) : (interval lower upper).length = (upper - lower + 1).toNat := by
  rw [interval, List.length_map, List.length_range]

namespace RandomGenerator

/-- The generator that answers with what is chosen. -/
def choosing (choices : List ℤ) : RandomGenerator where
  number n lower upper :=
    let c := choices.getD n lower
    if lower ≤ c ∧ c ≤ upper then c else lower
  cValues := ⟨0, 0, 0⟩
  lower_le n lower upper h := by
    dsimp only
    split
    · next hc => exact hc.1
    · exact le_rfl
  le_upper n lower upper h := by
    dsimp only
    split
    · next hc => exact hc.2
    · exact h

/-- The array that is made of what is chosen. -/
def permuted (lower upper : ℤ) (choices : List ℤ) : List ℤ :=
  ((choosing choices).makePermutation lower upper 0).elim [] Prod.fst

variable (random : RandomGenerator)

/-- What is drawn for a permutation, from a moment on. -/
def chosen (n : ℕ) (top : ℤ) : List ℤ := (List.range top.toNat).map fun i : ℕ => random.number (n + i) i top

theorem chosen_mem (n : ℕ) (top : ℤ) : random.chosen n top ∈ Choices top := by
  refine ⟨by rw [chosen, List.length_map, List.length_range], fun i c hc => ?_⟩
  rw [chosen, List.getElem?_map] at hc
  obtain ⟨j, hj, rfl⟩ := Option.map_eq_some_iff.mp hc
  obtain ⟨hi, rfl⟩ := List.getElem?_eq_some_iff.mp hj
  rw [List.length_range] at hi
  rw [List.getElem_range]
  exact ⟨random.lower_le _ (by omega), random.le_upper _ (by omega)⟩

/-- What is chosen is what is drawn. -/
theorem chosen_choosing {top : ℤ} {choices : List ℤ} (h : choices ∈ Choices top) :
    (choosing choices).chosen 0 top = choices := by
  obtain ⟨hlen, hrange⟩ := h
  refine List.ext_getElem? fun i => ?_
  rw [chosen, List.getElem?_map]
  rcases lt_or_ge i top.toNat with hi | hi
  · have hget := List.getElem?_eq_getElem (hlen ▸ hi : i < choices.length)
    rw [List.getElem?_range hi, hget]
    simp only [Option.map_some, choosing, Nat.zero_add, List.getD_eq_getElem?_getD, hget, Option.getD_some]
    rw [if_pos (hrange i _ hget)]
  · rw [List.getElem?_eq_none (by rw [List.length_range]; exact hi), List.getElem?_eq_none (by omega)]
    rfl

/-! ### What is made of it -/

/-- The numbers drawn from position `i` on, the first at the moment `n`. -/
theorem drawn_succ (top : ℤ) (i k n : ℕ) :
    (List.range' (i + 1) k).map (fun j => (random.number (n + (j - i)) j top).toNat) =
      (List.range' (i + 1) k).map fun j => (random.number (n + 1 + (j - (i + 1))) j top).toNat := by
  refine List.map_congr_left fun j hj => ?_
  have hle : i + 1 ≤ j := (List.mem_range'_1.mp hj).1
  rw [show n + (j - i) = n + 1 + (j - (i + 1)) by omega]

/-- The loop makes the exchanges, by induction on how many are left. -/
theorem foldlM_exchanges (top : ℤ) (k : ℕ) : ∀ (i n : ℕ) (array : List ℤ),
    ((List.range' i k).foldlM (fun array (i : ℕ) => do
      let index ← random.draw i top
      swap array i index.toNat) array : Rx (List ℤ)) n =
    (Shuffle.exchanges i array ((List.range' i k).map fun j => (random.number (n + (j - i)) j top).toNat)).map
      fun array => (array, n + k) := by
  induction k with
  | zero => exact fun i n array => rfl
  | succ k ih =>
    intro i n array
    have hone : (do
        let index ← random.draw i top
        swap array i index.toNat : Rx (List ℤ)) n =
        (Shuffle.exchange array i (random.number n i top).toNat).map fun array => (array, n + 1) := by
      rw [bind_apply, draw, Option.bind_some, lift_apply, swap_eq]
    rw [List.range'_succ, List.foldlM_cons, bind_apply, hone, List.map_cons, Nat.sub_self, Nat.add_zero,
      Shuffle.exchanges, random.drawn_succ]
    cases Shuffle.exchange array i (random.number n i top).toNat with
    | none => rfl
    | some array' =>
      rw [Option.map_some, Option.bind_some, ih, Option.bind_some, Nat.add_assoc n 1 k, Nat.add_comm 1 k]

/-- **`makePermutation` makes the exchanges** that are chosen. -/
theorem makePermutation_eq (lower upper : ℤ) (n : ℕ) :
    random.makePermutation lower upper n =
      (Shuffle.exchanges 0 (interval lower upper) ((random.chosen n (upper - lower)).map Int.toNat)).map
        fun array => (array, n + (upper - lower).toNat) := by
  rw [makePermutation, chosen, List.map_map, List.range_eq_range' (n := (upper - lower).toNat),
    random.foldlM_exchanges]
  rfl

end RandomGenerator

/-- What is chosen are picks. -/
theorem Choices.picks {top : ℤ} {choices : List ℤ} (htop : 0 ≤ top) (h : choices ∈ Choices top) :
    Shuffle.Picks (top + 1).toNat 0 (choices.map Int.toNat) := by
  obtain ⟨hlen, hrange⟩ := h
  refine Shuffle.picks_iff.mpr ⟨by rw [List.length_map]; omega, fun m j hm => ?_⟩
  rw [List.getElem?_map] at hm
  obtain ⟨c, hc, rfl⟩ := Option.map_eq_some_iff.mp hm
  have := hrange m c hc
  omega

/-- Picks are chosen. -/
theorem Choices.of_picks {top : ℤ} {picks : List ℕ} (htop : 0 ≤ top)
    (h : Shuffle.Picks (top + 1).toNat 0 picks) : picks.map Int.ofNat ∈ Choices top := by
  obtain ⟨hlen, hpicks⟩ := Shuffle.picks_iff.mp h
  refine ⟨by rw [List.length_map]; omega, fun i c hc => ?_⟩
  rw [List.getElem?_map] at hc
  obtain ⟨j, hj, rfl⟩ := Option.map_eq_some_iff.mp hc
  have := hpicks i j hj
  simp only [Int.ofNat_eq_natCast]
  omega

theorem map_toNat_ofNat (picks : List ℕ) : (picks.map Int.ofNat).map Int.toNat = picks := by
  rw [List.map_map]
  exact List.map_id'' (fun j => rfl) picks

theorem Choices.map_ofNat_toNat {top : ℤ} {choices : List ℤ} (h : choices ∈ Choices top) :
    (choices.map Int.toNat).map Int.ofNat = choices := by
  rw [List.map_map]
  refine (List.map_congr_left fun c hc => ?_).trans (List.map_id choices)
  obtain ⟨i, hi⟩ := List.getElem?_of_mem hc
  have := (h.2 i c hi).1
  simp only [Function.comp_apply, Int.ofNat_eq_natCast, id_eq]
  omega

namespace RandomGenerator

section Bijection

variable {lower upper : ℤ} {choices : List ℤ}

/-- What the array is made of what is chosen. -/
theorem exchanges_permuted (h : lower ≤ upper) (hc : choices ∈ Choices (upper - lower)) :
    Shuffle.exchanges 0 (interval lower upper) (choices.map Int.toNat) = some (permuted lower upper choices) ∧
      (permuted lower upper choices).Perm (interval lower upper) := by
  have hpicks := Choices.picks (by omega) hc
  rw [← length_interval] at hpicks
  obtain ⟨b, hb, hperm⟩ := Shuffle.exists_exchanges hpicks
  have hmade := (choosing choices).makePermutation_eq lower upper 0
  rw [chosen_choosing hc, hb] at hmade
  have heq : permuted lower upper choices = b := by
    rw [permuted, hmade]
    rfl
  rw [heq]
  exact ⟨hb, hperm⟩

/-- **The permutation that is made** is the one of what is drawn. -/
theorem makePermutation_eq_permuted (random : RandomGenerator) (h : lower ≤ upper) (n : ℕ) :
    random.makePermutation lower upper n =
      some (permuted lower upper (random.chosen n (upper - lower)), n + (upper - lower).toNat) := by
  rw [makePermutation_eq, (exchanges_permuted h (random.chosen_mem n _)).1]
  rfl

/-- **Each permutation is made in exactly one way.** -/
theorem permuted_bijOn (h : lower ≤ upper) :
    Set.BijOn (permuted lower upper) (Choices (upper - lower)) {array | array.Perm (interval lower upper)} := by
  have hpos : 0 < (interval lower upper).length := by rw [length_interval]; omega
  have hunique : ∀ {array : List ℤ}, array.Perm (interval lower upper) → ∃! picks,
      Shuffle.Picks (interval lower upper).length 0 picks ∧
        Shuffle.exchanges 0 (interval lower upper) picks = some array :=
    fun hperm => Shuffle.existsUnique_picks (nodup_interval lower upper) hpos hperm rfl
  rw [length_interval] at hunique
  refine ⟨fun choices hc => (exchanges_permuted h hc).2, fun choices hc choices' hc' heq => ?_, fun array hperm => ?_⟩
  · obtain ⟨hmade, hperm⟩ := exchanges_permuted h hc
    obtain ⟨hmade', -⟩ := exchanges_permuted h hc'
    have hpicks := (hunique hperm).unique ⟨Choices.picks (by omega) hc, hmade⟩
      ⟨Choices.picks (by omega) hc', heq ▸ hmade'⟩
    rw [← Choices.map_ofNat_toNat hc, hpicks, Choices.map_ofNat_toNat hc']
  · obtain ⟨picks, ⟨hpicks, hmade⟩, -⟩ := hunique hperm
    have hc := Choices.of_picks (by omega) hpicks
    refine ⟨picks.map Int.ofNat, hc, ?_⟩
    have heq := (exchanges_permuted h hc).1
    rw [map_toNat_ofNat, hmade] at heq
    exact (Option.some.inj heq).symm

end Bijection

end RandomGenerator

/-! ### The orders that are loaded -/

open RandomGenerator

/-- **Permutations are exact**: what is drawn and what is made of it correspond, whatever the
source, and each customer that is loaded has one order. -/
theorem TPCCGenerator.permutations_exact {F : Type} [Money F] :
    (∀ {lower upper : ℤ}, lower ≤ upper →
      Set.BijOn (permuted lower upper) (Choices (upper - lower)) {array | array.Perm (interval lower upper)} ∧
      ∀ (random : RandomGenerator) (n : ℕ), random.chosen n (upper - lower) ∈ Choices (upper - lower) ∧
        random.makePermutation lower upper n =
          some (permuted lower upper (random.chosen n (upper - lower)), n + (upper - lower).toNat)) ∧
    ∀ {g : TPCCGenerator} {warehouses : ℕ} {t : Tables F}, g.Loads warehouses t → ∀ {w d c : ℤ},
      (t.db.row .customer (w, d, c)).isSome →
        ∃! o, ∃ order, t.db.row .order (w, d, o) = some order ∧ order.oCId = c := by
  refine ⟨fun h => ⟨permuted_bijOn h, fun random n => ⟨random.chosen_mem n _, ?_⟩⟩, fun ht w d c hc => ?_⟩
  · exact makePermutation_eq_permuted random h n
  · obtain ⟨-, x, hx, hdb⟩ := ht.exists_db
    rw [hdb] at hc ⊢
    exact hx.owns hc

/-- The permutations of three numbers, and a load with one customer in each district. -/
theorem TPCCGenerator.permutations_exact_small :
    (∃! choices, choices ∈ Choices (3 - 1) ∧ permuted 1 3 choices = [3, 1, 2]) ∧
      ∃! o, ∃ order, generatedTables.db.row .order (1, 1, o) = some order ∧ order.oCId = 1 := by
  have hexact := permutations_exact (F := ℚ)
  refine ⟨?_, ?_⟩
  · have hbij := (hexact.1 (show (1 : ℤ) ≤ 3 by decide)).1
    obtain ⟨choices, hc, heq⟩ := hbij.surjOn (show [3, 1, 2].Perm (interval 1 3) by decide)
    refine ⟨choices, ⟨hc, heq⟩, fun choices' ⟨hc', heq'⟩ => hbij.injOn hc' hc (heq'.trans heq.symm)⟩
  · obtain ⟨-, x, -, hdb⟩ := generatedTables_loads.exists_db
    refine hexact.2 generatedTables_loads ?_
    rw [hdb]
    exact db_customer_isSome.mpr (by decide)

end TpccBench
