import Mathlib.Data.Nat.Notation
import Mathlib.Logic.Function.Basic

/-!
# Allocated memory for one type of values

Addresses are handed out by `TpccBench.Memory.new`, each one once. Reading, writing and
freeing an address that is not allocated has no result, so a program that has one has
neither read freed memory nor freed anything twice.
-/

namespace TpccBench

/-- A memory. -/
structure Memory (α : Type) where
  /-- The address that will be handed out next. -/
  next : ℕ
  cell : ℕ → Option α
  unused : ∀ p, next ≤ p → cell p = none

namespace Memory

variable {α : Type} (m : Memory α)

def empty : Memory α := ⟨0, fun _ => none, fun _ _ => rfl⟩

/-- `new`: the address and the memory. -/
def new (x : α) : ℕ × Memory α :=
  (m.next,
    { next := m.next + 1
      cell := Function.update m.cell m.next (some x)
      unused := fun p hp => by
        rw [Function.update_of_ne (by omega)]
        exact m.unused p (by omega) })

/-- Assign to an allocated cell. -/
def write (p : ℕ) (x : α) : Option (Memory α) :=
  if h : (m.cell p).isSome then
    some
      { m with
        cell := Function.update m.cell p (some x)
        unused := fun q hq => by
          rw [Function.update_of_ne, m.unused q hq]
          rintro rfl
          simp [m.unused q hq] at h }
  else none

/-- `delete`. -/
def free (p : ℕ) : Option (Memory α) :=
  if (m.cell p).isSome then
    some
      { m with
        cell := Function.update m.cell p none
        unused := fun q hq => by
          by_cases hqp : q = p
          · rw [hqp, Function.update_self]
          · rw [Function.update_of_ne hqp, m.unused q hq] }
  else none

variable {m} {m' : Memory α} {p : ℕ} {x : α}

theorem cell_next : m.cell m.next = none := m.unused _ (Nat.le_refl _)

theorem write_eq_some (h : (m.cell p).isSome) :
    ∃ m', m.write p x = some m' ∧ m'.cell = Function.update m.cell p (some x) ∧
      m'.next = m.next :=
  ⟨_, dif_pos h, rfl, rfl⟩

theorem write_eq_none (h : m.cell p = none) : m.write p x = none := dif_neg (by simp [h])

theorem free_eq_some (h : (m.cell p).isSome) :
    ∃ m', m.free p = some m' ∧ m'.cell = Function.update m.cell p none ∧ m'.next = m.next :=
  ⟨_, if_pos h, rfl, rfl⟩

theorem free_eq_none (h : m.cell p = none) : m.free p = none := if_neg (by simp [h])

end Memory

end TpccBench
