import TpccBench.Lib.Run
import Mathlib.Data.List.Nodup
import Mathlib.Data.List.Range

/-!
# A register

Entries come into a register one after the other, and are numbered as they come. An entry is
removed by its number, in any order and at any time after it came. What should be in the
register then is a matter of the numbers alone (`TpccBench.Register.live`): those that came
and were not removed.

Where the last entry is always the one to go, the register is a stack on top of what was in it
before (`TpccBench.Register.LastFirst`).
-/

namespace TpccBench

namespace Register

/-- What is done to a register. -/
inductive Act
  | add
  /-- Remove the entry with a number. -/
  | remove (i : ℕ)
  deriving DecidableEq

variable {l l' : List Act} {i : ℕ}

/-- How many entries have come. -/
def added (l : List Act) : ℕ := l.count .add

@[simp] theorem added_nil : added [] = 0 := rfl

@[simp] theorem added_add : added (l ++ [.add]) = added l + 1 := by simp [added]

@[simp] theorem added_remove : added (l ++ [.remove i]) = added l := by simp [added]

/-- **What is in the register**: the entries that came and were not removed, as they came. -/
def live (l : List Act) : List ℕ := (List.range (added l)).filter fun i => .remove i ∉ l

@[simp] theorem live_nil : live [] = [] := rfl

theorem mem_live : i ∈ live l ↔ i < added l ∧ .remove i ∉ l := by simp [live]

theorem nodup_live (l : List Act) : (live l).Nodup := List.nodup_range.filter _

/-- An entry that is in the register may be removed. -/
def Proper (done : List Act) : Act → Prop
  | .add => True
  | .remove i => i ∈ live done

/-- What was removed had come. -/
theorem lt_added_of_removed (h : Run.Each Proper l) (hi : .remove i ∈ l) : i < added l := by
  induction l using List.reverseRecOn with
  | nil => exact absurd hi List.not_mem_nil
  | append_singleton l a ih =>
    obtain ⟨hl, ha⟩ := Run.each_snoc.mp h
    have hle : added l ≤ added (l ++ [a]) := by cases a <;> simp
    rcases List.mem_append.mp hi with hi | hi
    · exact lt_of_lt_of_le (ih hl hi) hle
    · obtain rfl := List.mem_singleton.mp hi
      exact lt_of_lt_of_le (mem_live.mp ha).1 hle

/-- **An entry comes**, and is the last one. -/
theorem live_add (h : Run.Each Proper l) : live (l ++ [.add]) = live l ++ [added l] := by
  have hnew : .remove (added l) ∉ l := fun hi => absurd (lt_added_of_removed h hi) (lt_irrefl _)
  simp [live, List.range_succ, List.filter_append, hnew]

/-- **An entry is removed**, and the others stay. -/
theorem live_remove (l : List Act) (i : ℕ) : live (l ++ [.remove i]) = (live l).erase i := by
  rw [(nodup_live l).erase_eq_filter, live, live, added_remove, List.filter_filter]
  refine List.filter_congr fun j _ => ?_
  by_cases hj : j = i
  · simp [hj]
  · simp [hj]

/-! ### The last one goes first -/

/-- If an entry is removed, then the last one that is in the register, and it came after `l`. -/
def LastFirst (l done : List Act) : Act → Prop
  | .add => True
  | .remove i => added l ≤ i ∧ (live (l ++ done)).getLast? = some i

instance (l done : List Act) (a : Act) : Decidable (LastFirst l done a) :=
  match a with
  | .add => .isTrue trivial
  | .remove i => inferInstanceAs (Decidable (added l ≤ i ∧ (live (l ++ done)).getLast? = some i))

/-- **The last of those that came after `l` goes**, and what is below it stays. -/
theorem LastFirst.live_remove {done : List Act} {new : List ℕ} (h : LastFirst l done (.remove i))
    (hnew : live (l ++ done) = live l ++ new) :
    ∃ new', new = new' ++ [i] ∧ live (l ++ done ++ [.remove i]) = live l ++ new' := by
  obtain ⟨hle, hlast⟩ := h
  have hold : i ∉ live l := fun hi => absurd (mem_live.mp hi).1 (not_lt.mpr hle)
  rw [hnew] at hlast
  rcases List.eq_nil_or_concat new with rfl | ⟨new', j, rfl⟩
  · rw [List.append_nil] at hlast
    exact absurd (List.mem_of_getLast? hlast) hold
  · rw [List.concat_eq_append] at *
    rw [← List.append_assoc, List.getLast?_concat] at hlast
    obtain rfl := Option.some.inj hlast
    have hnd := nodup_live (l ++ done)
    rw [hnew, ← List.append_assoc] at hnd
    have hj : j ∉ live l ++ new' := fun hj =>
      (List.nodup_append.mp hnd).2.2 j hj j (List.mem_singleton_self j) rfl
    refine ⟨new', rfl, ?_⟩
    rw [Register.live_remove, hnew, ← List.append_assoc, List.erase_append_right _ hj, List.erase_cons_head,
      List.append_nil]

/-! ### What the entries are -/

section Entries

variable {α β : Type} {xs : List α} {x : α} {l : List ℕ} {i : ℕ}

/-- The entries with some numbers, of all that have come. -/
def entries (xs : List α) (l : List ℕ) : List α := l.filterMap fun i => xs[i]?

theorem entries_append (xs : List α) (l l' : List ℕ) : entries xs (l ++ l') = entries xs l ++ entries xs l' :=
  List.filterMap_append

theorem entries_singleton (h : xs[i]? = some x) : entries xs [i] = [x] := by
  rw [entries, List.filterMap_cons_some h, List.filterMap_nil]

theorem mem_entries : x ∈ entries xs l ↔ ∃ i ∈ l, xs[i]? = some x := List.mem_filterMap

theorem map_entries (f : α → β) (xs : List α) (l : List ℕ) : (entries xs l).map f = entries (xs.map f) l := by
  simp only [entries, List.map_filterMap, List.getElem?_map]

/-- Those that have come are what they are when another one comes. -/
theorem entries_concat (h : ∀ i ∈ l, i < xs.length) : entries (xs ++ [x]) l = entries xs l :=
  List.filterMap_congr fun i hi => List.getElem?_append_left (h i hi)

/-- **An entry goes.** -/
theorem perm_entries_erase (hi : i ∈ l) (h : xs[i]? = some x) :
    (entries xs l).Perm (x :: entries xs (l.erase i)) := by
  have hperm := (List.perm_cons_erase hi).filterMap fun i => xs[i]?
  rwa [List.filterMap_cons_some h] at hperm

theorem nodup_entries (hx : xs.Nodup) (hl : l.Nodup) : (entries xs l).Nodup := by
  refine hl.filterMap fun i j a hi hj => ?_
  obtain ⟨hlt, -⟩ := List.getElem?_eq_some_iff.mp hi
  exact (List.getElem?_inj hlt hx).mp (hi.trans hj.symm)

end Entries

end Register

end TpccBench
