import Mathlib.Algebra.BigOperators.Group.List.Basic
import Mathlib.Tactic

/-!
# Counters of a machine word

A machine word holds a result modulo its size, read with a sign (`TpccBench.Word.wrap`). So a counter that is
added to step by step holds the sum modulo that size, and in whatever order (`TpccBench.Word.tally_perm`): it does
no harm that a sum in between does not fit, as long as the last one does (`TpccBench.Word.tally_of_fits`).
-/

namespace TpccBench

namespace Word

variable {bits : ℕ} {x y n : ℤ} {ns ns' : List ℤ}

/-! ### Words -/

/-- The numbers that a word of so many bits can hold. -/
def Fits (bits : ℕ) (x : ℤ) : Prop := -2 ^ (bits - 1) ≤ x ∧ x < 2 ^ (bits - 1)

instance : Decidable (Fits bits x) := inferInstanceAs (Decidable (_ ∧ _))

/-- The one that it holds for a result. -/
def wrap (bits : ℕ) (x : ℤ) : ℤ := x.bmod (2 ^ bits)

theorem two_pow_eq (hbits : 0 < bits) : ((2 ^ bits : ℕ) : ℤ) = 2 * 2 ^ (bits - 1) := by
  obtain ⟨b, rfl⟩ : ∃ b, bits = b + 1 := ⟨bits - 1, by omega⟩
  push_cast
  rw [pow_succ, mul_comm]

theorem wrap_fits (hbits : 0 < bits) (x : ℤ) : Fits bits (wrap bits x) := by
  have hsize := two_pow_eq hbits
  have hpos : 0 < 2 ^ bits := Nat.two_pow_pos bits
  have hlo := Int.le_bmod (x := x) hpos
  have hhi := Int.bmod_lt (x := x) hpos
  rw [Fits, wrap]
  omega

theorem wrap_of_fits (hbits : 0 < bits) (h : Fits bits x) : wrap bits x = x := by
  have hsize := two_pow_eq hbits
  obtain ⟨hlo, hhi⟩ := h
  exact Int.bmod_eq_of_le_mul_two (by omega) (by omega)

/-- What is added to a word may be added before. -/
theorem wrap_wrap_add : wrap bits (wrap bits x + y) = wrap bits (x + y) := Int.bmod_add_bmod

/-! ### Counters -/

/-- **A counter** that is added to step by step. -/
def tally (bits : ℕ) (x : ℤ) (ns : List ℤ) : ℤ := ns.foldl (fun x n => wrap bits (x + n)) x

@[simp] theorem tally_nil : tally bits x [] = x := rfl

theorem tally_cons : tally bits x (n :: ns) = tally bits (wrap bits (x + n)) ns := rfl

theorem tally_append : tally bits x (ns ++ ns') = tally bits (tally bits x ns) ns' := List.foldl_append

theorem tally_fits (hbits : 0 < bits) (hx : Fits bits x) : Fits bits (tally bits x ns) := by
  induction ns generalizing x with
  | nil => exact hx
  | cons n ns ih => exact ih (wrap_fits hbits _)

/-- **It counts modulo the size of the word.** -/
theorem wrap_tally : wrap bits (tally bits x ns) = wrap bits (x + ns.sum) := by
  induction ns generalizing x with
  | nil => rw [tally_nil, List.sum_nil, add_zero]
  | cons n ns ih => rw [tally_cons, ih, wrap_wrap_add, List.sum_cons, add_assoc]

/-- A word at first is a word that counts. -/
theorem tally_eq_wrap (hbits : 0 < bits) (hx : Fits bits x) : tally bits x ns = wrap bits (x + ns.sum) := by
  rw [← wrap_tally, wrap_of_fits hbits (tally_fits hbits hx)]

/-- **A sum that fits is exact**, whatever the sums before it were. -/
theorem tally_of_fits (hbits : 0 < bits) (h : Fits bits (x + ns.sum)) : tally bits x ns = x + ns.sum := by
  cases ns with
  | nil => rw [tally_nil, List.sum_nil, add_zero]
  | cons n ns =>
    rw [tally_cons, tally_eq_wrap hbits (wrap_fits hbits _), wrap_wrap_add, add_assoc, ← List.sum_cons,
      wrap_of_fits hbits h]

/-- **The order does not matter.** -/
theorem tally_perm (h : ns.Perm ns') : tally bits x ns = tally bits x ns' :=
  h.foldl_eq' (fun a _ b _ x => by rw [wrap_wrap_add, wrap_wrap_add, add_right_comm]) x

end Word

end TpccBench
