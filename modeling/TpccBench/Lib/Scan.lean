import TpccBench.Lib.Sim
import Mathlib.Data.Finset.Card
import Mathlib.Data.List.Sort

/-!
# Scans

A scan goes through a list and looks at a state that it leaves alone. It ends if it fails at no
element (`TpccBench.Prog.mapM_look`), and gets to the elements up to the first at which it fails
(`TpccBench.Prog.visited`). What it has collected is sorted, and then one pass that counts what
differs from the value before counts the distinct values (`TpccBench.foldl_changes`).
-/

namespace TpccBench

namespace Prog

variable {S α ι : Type} {f : ι → Prog S α} {p : ι → Prop} [DecidablePred p] {s : S}

/-- **A scan that only looks.** -/
theorem mapM_look {g : ι → α} (l : List ι) (h : ∀ i ∈ l, f i s = if p i then some (g i, s) else none) :
    l.mapM f s = if ∀ i ∈ l, p i then some (l.map g, s) else none := by
  induction l with
  | nil => rfl
  | cons i l ih =>
    have hi := h i List.mem_cons_self
    have hl := ih fun j hj => h j (List.mem_cons_of_mem _ hj)
    rw [List.mapM_cons, bind_apply, hi]
    by_cases hp : p i
    · rw [if_pos hp, Option.bind_some, bind_apply, hl]
      by_cases hall : ∀ j ∈ l, p j
      · rw [if_pos hall, Option.bind_some, if_pos (List.forall_mem_cons.mpr ⟨hp, hall⟩)]
        rfl
      · rw [if_neg hall, Option.bind_none, if_neg fun h => hall (List.forall_mem_cons.mp h).2]
    · rw [if_neg hp, Option.bind_none, if_neg fun h => hp (List.forall_mem_cons.mp h).1]

theorem forM_look {f : ι → Prog S Unit} (l : List ι) (h : ∀ i ∈ l, f i s = if p i then some ((), s) else none) :
    l.forM f s = if ∀ i ∈ l, p i then some ((), s) else none := by
  induction l with
  | nil => rfl
  | cons i l ih =>
    have hl := ih fun j hj => h j (List.mem_cons_of_mem _ hj)
    rw [forM_cons_apply, h i List.mem_cons_self]
    by_cases hp : p i
    · rw [if_pos hp, Option.bind_some, hl]
      by_cases hall : ∀ j ∈ l, p j
      · rw [if_pos hall, if_pos (List.forall_mem_cons.mpr ⟨hp, hall⟩)]
      · rw [if_neg hall, if_neg fun h => hall (List.forall_mem_cons.mp h).2]
    · rw [if_neg hp, Option.bind_none, if_neg fun h => hp (List.forall_mem_cons.mp h).1]

/-- The elements that a loop gets to. -/
def visited (f : ι → Prog S α) : List ι → S → List ι
  | [], _ => []
  | i :: l, s => i :: (match f i s with
    | none => []
    | some (_, s') => visited f l s')

theorem visited_subset (f : ι → Prog S α) (l : List ι) (s : S) : visited f l s ⊆ l := by
  induction l generalizing s with
  | nil => exact fun _ h => h
  | cons i l ih =>
    intro j hj
    rcases List.mem_cons.mp hj with rfl | hj
    · exact List.mem_cons_self
    · cases hf : f i s with
      | none =>
        rw [hf] at hj
        exact absurd hj List.not_mem_nil
      | some r =>
        rw [hf] at hj
        exact List.mem_cons_of_mem _ (ih r.2 hj)

theorem head_mem_visited (f : ι → Prog S α) (i : ι) (l : List ι) (s : S) : i ∈ visited f (i :: l) s :=
  List.mem_cons_self

end Prog

/-- **Counting the changes in a sorted list** counts its values, if the first of them is a change. -/
theorem foldl_changes {α : Type} [LinearOrder α] {l : List α} (hs : l.Pairwise (· ≤ ·)) {last : α}
    (h : ∀ x ∈ l, last ≤ x) (n : ℤ) :
    (l.foldl (fun (r : α × ℤ) x => if x ≠ r.1 then (x, r.2 + 1) else r) (last, n)).2 =
      n + ((l.toFinset.erase last).card : ℤ) := by
  induction l generalizing last n with
  | nil => simp
  | cons x l ih =>
    obtain ⟨hx, hs⟩ := List.pairwise_cons.mp hs
    rw [List.foldl_cons, List.toFinset_cons]
    by_cases heq : x = last
    · subst heq
      rw [if_neg fun hne => hne rfl, ih hs hx, Finset.erase_insert_eq_erase]
    · have hlast : last < x := lt_of_le_of_ne (h x List.mem_cons_self) (Ne.symm heq)
      have hout : last ∉ insert x l.toFinset := fun hmem => by
        rcases Finset.mem_insert.mp hmem with rfl | hmem
        · exact heq rfl
        · exact absurd (hx last (List.mem_toFinset.mp hmem)) (not_le_of_gt hlast)
      have hcard := Finset.card_erase_add_one (Finset.mem_insert_self x l.toFinset)
      rw [Finset.erase_insert_eq_erase] at hcard
      rw [if_pos heq, ih hs hx, Finset.erase_eq_of_notMem hout]
      omega

end TpccBench
