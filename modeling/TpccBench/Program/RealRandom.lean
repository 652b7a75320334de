import TpccBench.Load.Random
import Mathlib.Data.Int.CardIntervalMod

/-!
# The generator of the program

`RealRandomGenerator::number` brings an answer of `random_r` into the range that is asked for, by the remainder of a
division. What `random_r` answers is a parameter here. A range that is empty, or has no size that is an
`int`, is refused by one of the assertions.

The remainders are not equally frequent: of all answers that `random_r` can give, the first numbers of a range get
one more than the others, unless the size of the range divides how many answers there are
(`TpccBench.RealRandomGenerator.number_tally`).
-/

namespace TpccBench

/-- `RAND_MAX`. -/
def randMax : ℤ := 2147483647

/-- How many answers `random_r` can give. -/
def rawAnswers : ℕ := 2147483648

namespace RealRandomGenerator

variable {lower upper randInt i : ℤ}

/-- `RealRandomGenerator::number`, with the answer of `random_r`. -/
def number (randInt lower upper : ℤ) : Option ℤ := do
  guard (0 ≤ randInt ∧ randInt ≤ randMax)
  let width ← Overflow.checked.int32 (upper - lower)
  let rangeSize ← Overflow.checked.int32 (width + 1)
  -- the remainder of a division by zero is undefined
  guard (rangeSize ≠ 0)
  let randInt := randInt.tmod rangeSize
  guard (0 ≤ randInt ∧ randInt < rangeSize)
  let randInt ← Overflow.checked.int32 (randInt + lower)
  guard (lower ≤ randInt ∧ randInt ≤ upper)
  return randInt

/-- **A range that can be asked for**: not empty, and its size is an `int`. -/
def Askable (lower upper : ℤ) : Prop := lower ≤ upper ∧ upper - lower + 1 < 2147483648

/-- What is answered is in the range. -/
theorem number_range (h : number randInt lower upper = some i) : lower ≤ i ∧ i ≤ upper := by
  obtain ⟨_, -, h⟩ := Option.bind_eq_some_iff.mp h
  obtain ⟨width, -, h⟩ := Option.bind_eq_some_iff.mp h
  obtain ⟨rangeSize, -, h⟩ := Option.bind_eq_some_iff.mp h
  obtain ⟨_, -, h⟩ := Option.bind_eq_some_iff.mp h
  obtain ⟨_, -, h⟩ := Option.bind_eq_some_iff.mp h
  obtain ⟨r, -, h⟩ := Option.bind_eq_some_iff.mp h
  obtain ⟨_, hguard, h⟩ := Option.bind_eq_some_iff.mp h
  obtain rfl := Option.some.inj h
  by_contra hout
  simp [guard, hout] at hguard

/-- The size of a range for which there is an answer. -/
theorem askable_of_number (h : number randInt lower upper = some i) : Askable lower upper := by
  obtain ⟨hle, hle'⟩ := number_range h
  refine ⟨hle.trans hle', ?_⟩
  obtain ⟨_, -, h⟩ := Option.bind_eq_some_iff.mp h
  obtain ⟨width, hwidth, h⟩ := Option.bind_eq_some_iff.mp h
  obtain ⟨rangeSize, hsize, -⟩ := Option.bind_eq_some_iff.mp h
  obtain ⟨rfl, -⟩ := Overflow.checked_eq_some hwidth
  exact (Overflow.checked_eq_some hsize).2

/-- **What is answered** for a range that can be asked for. -/
theorem number_of_askable (hlower : -2147483648 ≤ lower) (hupper : upper < 2147483648) (h : Askable lower upper)
    (h₀ : 0 ≤ randInt) (hmax : randInt ≤ randMax) :
    number randInt lower upper = some (randInt % (upper - lower + 1) + lower) := by
  obtain ⟨hle, hsize⟩ := h
  have hmod : randInt.tmod (upper - lower + 1) = randInt % (upper - lower + 1) :=
    Int.tmod_eq_emod_of_nonneg h₀
  have hnonneg := Int.emod_nonneg randInt (show upper - lower + 1 ≠ 0 by omega)
  have hlt := Int.emod_lt_of_pos randInt (show 0 < upper - lower + 1 by omega)
  rw [number, Overflow.int32_of_fits _ (by omega) (by omega)]
  simp only [Option.bind_eq_bind, Option.bind_some, guard]
  rw [if_pos ⟨h₀, hmax⟩, Overflow.int32_of_fits _ (by omega) (by omega)]
  simp only [Option.pure_def, Option.bind_some, hmod]
  rw [if_pos (by omega), if_pos ⟨hnonneg, hlt⟩, Overflow.int32_of_fits _ (by omega) (by omega)]
  simp only [Option.bind_some]
  rw [if_pos ⟨by omega, by omega⟩, Option.bind_some]

/-- **How many answers** of `random_r` give a number. -/
def tally (lower upper i : ℤ) : ℕ := rawAnswers.count fun randInt => number randInt lower upper = some i

theorem tally_eq (hlower : -2147483648 ≤ lower) (hupper : upper < 2147483648) (h : Askable lower upper)
    (hi : lower ≤ i) (hi' : i ≤ upper) :
    (tally lower upper i : ℤ) = rawAnswers / (upper - lower + 1) +
      if i - lower < rawAnswers % (upper - lower + 1) then 1 else 0 := by
  obtain ⟨size, hsize⟩ := Int.eq_ofNat_of_zero_le (show 0 ≤ upper - lower + 1 by omega)
  obtain ⟨v, hv⟩ := Int.eq_ofNat_of_zero_le (show 0 ≤ i - lower by omega)
  have hlt : v < size := by omega
  have hanswer : ∀ r ∈ Finset.range rawAnswers, number r lower upper = some i ↔ r ≡ v [MOD size] := by
    intro r hr
    have hmax : (r : ℤ) ≤ randMax := by
      rw [Finset.mem_range, rawAnswers] at hr
      rw [randMax]
      omega
    rw [number_of_askable hlower hupper h (Int.natCast_nonneg r) hmax, hsize, Option.some.injEq, Nat.ModEq,
      Nat.mod_eq_of_lt hlt]
    push_cast [← @Int.natCast_inj (r % size)]
    omega
  have hcount : tally lower upper i = rawAnswers.count (· ≡ v [MOD size]) := by
    rw [tally, Nat.count_eq_card_filter_range, Nat.count_eq_card_filter_range, Finset.filter_congr hanswer]
  rw [hcount, Nat.count_modEq_card _ (by omega), Nat.mod_eq_of_lt hlt, hsize, hv]
  simp only [← Int.natCast_mod, Int.ofNat_lt]
  push_cast
  rfl

/-- **How the answers are spread.** A range is answered exactly if it can be asked for, whatever `random_r` gives.
Each number of the range comes from as many answers of `random_r`, but for one more for those at its beginning; and
all of them are equally frequent exactly if the size of the range divides how many answers there are. -/
theorem number_tally (hlower : -2147483648 ≤ lower) (hupper : upper < 2147483648) :
    (∀ randInt, 0 ≤ randInt → randInt ≤ randMax → ((number randInt lower upper).isSome ↔ Askable lower upper)) ∧
      (Askable lower upper →
        (∀ i, lower ≤ i → i ≤ upper → (tally lower upper i : ℤ) = rawAnswers / (upper - lower + 1) +
          if i - lower < rawAnswers % (upper - lower + 1) then 1 else 0) ∧
        ((∀ i j, lower ≤ i → i ≤ upper → lower ≤ j → j ≤ upper → tally lower upper i = tally lower upper j) ↔
          upper - lower + 1 ∣ rawAnswers)) := by
  refine ⟨?_, fun h => ⟨fun i hi hi' => tally_eq hlower hupper h hi hi', ?_, ?_⟩⟩
  · intro randInt h₀ hmax
    constructor
    · intro hsome
      obtain ⟨i, hi⟩ := Option.isSome_iff_exists.mp hsome
      exact askable_of_number hi
    · intro h
      rw [number_of_askable hlower hupper h h₀ hmax]
      rfl
  · -- the first number of the range and the last one
    intro hall
    have hle := h.1
    have hfirst := tally_eq hlower hupper h le_rfl hle
    have hlast := tally_eq hlower hupper h hle le_rfl
    rw [hall lower upper le_rfl hle hle le_rfl, hlast] at hfirst
    have hnonneg := Int.emod_nonneg (rawAnswers : ℤ) (show upper - lower + 1 ≠ 0 by omega)
    have hlt := Int.emod_lt_of_pos (rawAnswers : ℤ) (show 0 < upper - lower + 1 by omega)
    apply Int.dvd_of_emod_eq_zero
    split_ifs at hfirst <;> omega
  · intro hdvd i j hi hi' hj hj'
    have hmod := Int.emod_eq_zero_of_dvd hdvd
    have hti := tally_eq hlower hupper h hi hi'
    have htj := tally_eq hlower hupper h hj hj'
    rw [hmod, if_neg (by omega)] at hti htj
    exact Int.natCast_inj.mp (hti.trans htj.symm)

/-- A hundred is not a power of two. -/
theorem number_tally_hundred : ¬∀ i j, 1 ≤ i → i ≤ 100 → 1 ≤ j → j ≤ 100 → tally 1 100 i = tally 1 100 j := by
  have haskable : Askable 1 100 := by
    constructor <;> norm_num
  obtain ⟨-, hspread⟩ := number_tally (show (-2147483648 : ℤ) ≤ 1 by norm_num)
    (show (100 : ℤ) < 2147483648 by norm_num)
  rw [(hspread haskable).2, rawAnswers]
  decide

/-- The generator, when `random_r` answers these numbers one after the other. -/
def answering (raws : ℕ → ℤ) (cValues : NURandC) : RandomGenerator where
  number n lower upper := (number (raws n) lower upper).getD lower
  cValues := cValues
  lower_le n {lower upper} _ := by
    cases h : number (raws n) lower upper with
    | none => exact le_rfl
    | some i => exact (number_range h).1
  le_upper n {lower upper} hle := by
    cases h : number (raws n) lower upper with
    | none => exact hle
    | some i => exact (number_range h).2

end RealRandomGenerator

end TpccBench
