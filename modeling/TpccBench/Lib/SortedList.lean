import Mathlib.Data.List.InsertIdx
import Mathlib.Data.List.Sort

/-!
# Sorted lists as sets

A set that is kept in order is a list whose keys increase (`TpccBench.Increasing`). How many
elements come before a key says where the key belongs, and what is between two keys is what
is between their places.
-/

namespace TpccBench

variable {α κ : Type} [LinearOrder κ] {f : α → κ} {l : List α} {k k' : κ}

/-- The keys increase. -/
def Increasing (f : α → κ) (l : List α) : Prop := l.Pairwise fun a b => f a < f b

/-- The place of a key: how many elements there are before it. -/
def below (f : α → κ) (k : κ) (l : List α) : ℕ := (l.takeWhile fun a => f a < k).length

/-- The elements before a key are the smaller ones. -/
theorem Increasing.takeWhile_eq (h : Increasing f l) (k : κ) :
    (l.takeWhile fun a => f a < k) = l.filter fun a => f a < k := by
  induction l with
  | nil => rfl
  | cons a l ih =>
    obtain ⟨ha, hl⟩ := List.pairwise_cons.mp h
    by_cases hk : f a < k
    · rw [List.takeWhile_cons_of_pos (by simpa using hk), List.filter_cons_of_pos (by simpa using hk), ih hl]
    · rw [List.takeWhile_cons_of_neg (by simpa using hk), List.filter_cons_of_neg (by simpa using hk)]
      refine (List.filter_eq_nil_iff.mpr fun b hb hlt => hk ?_).symm
      exact (ha b hb).trans (of_decide_eq_true hlt)

/-- The elements from a key on are the others. -/
theorem Increasing.dropWhile_eq (h : Increasing f l) (k : κ) :
    (l.dropWhile fun a => f a < k) = l.filter fun a => k ≤ f a := by
  induction l with
  | nil => rfl
  | cons a l ih =>
    obtain ⟨ha, hl⟩ := List.pairwise_cons.mp h
    by_cases hk : f a < k
    · rw [List.dropWhile_cons_of_pos (by simpa using hk), List.filter_cons_of_neg (by simpa using hk), ih hl]
    · rw [List.dropWhile_cons_of_neg (by simpa using hk)]
      refine (List.filter_eq_self.mpr fun b hb => decide_eq_true ?_).symm
      rcases List.mem_cons.mp hb with rfl | hb
      · exact not_lt.mp hk
      · exact (not_lt.mp hk).trans (ha b hb).le

theorem take_below (h : Increasing f l) (k : κ) : l.take (below f k l) = l.filter fun a => f a < k := by
  rw [← h.takeWhile_eq, below]
  exact (List.prefix_iff_eq_take.mp (List.takeWhile_prefix _)).symm

theorem drop_below (h : Increasing f l) (k : κ) : l.drop (below f k l) = l.filter fun a => k ≤ f a := by
  have happ : (l.takeWhile fun a => f a < k) ++ (l.dropWhile fun a => f a < k) = l :=
    List.takeWhile_append_dropWhile
  rw [← h.dropWhile_eq, below]
  nth_rewrite 2 [← happ]
  exact List.drop_left

theorem below_eq_countP (h : Increasing f l) (k : κ) : below f k l = l.countP fun a => f a < k := by
  rw [below, h.takeWhile_eq, List.countP_eq_length_filter]

theorem below_le (h : Increasing f l) (hk : k ≤ k') : below f k l ≤ below f k' l := by
  rw [below_eq_countP h, below_eq_countP h]
  refine List.countP_mono_left fun a _ ha => ?_
  simp only [decide_eq_true_eq] at ha ⊢
  exact ha.trans_le hk

/-- **What is between two keys.** -/
theorem take_drop_below (h : Increasing f l) (hk : k ≤ k') :
    (l.drop (below f k l)).take (below f k' l - below f k l) = l.filter fun a => k ≤ f a ∧ f a < k' := by
  have hdrop : Increasing f (l.drop (below f k l)) := List.Pairwise.sublist (List.drop_sublist _ _) h
  -- all that is before the first key is before the second
  have hcount : below f k' l - below f k l = below f k' (l.drop (below f k l)) := by
    have hall : (l.take (below f k l)).countP (fun a => f a < k') = below f k l := by
      rw [take_below h, List.countP_filter, below_eq_countP h]
      refine List.countP_congr fun a _ => ?_
      simp only [Bool.and_eq_true, decide_eq_true_eq, and_iff_right_iff_imp]
      exact fun ha => ha.trans_le hk
    rw [below_eq_countP h k', below_eq_countP hdrop]
    conv_lhs => rw [← List.take_append_drop (below f k l) l, List.countP_append]
    rw [List.take_append_drop, hall, Nat.add_sub_cancel_left]
  rw [hcount, take_below hdrop, drop_below h, List.filter_filter]
  refine List.filter_congr fun a _ => ?_
  rw [Bool.eq_iff_iff]
  simp [and_comm]

/-- What is at the place of a key. -/
theorem getElem?_below (h : Increasing f l) (k : κ) :
    l[below f k l]? = (l.filter fun a => k ≤ f a).head? := by
  rw [← drop_below h, List.head?_drop]

/-- The place of an element that is there. -/
theorem Increasing.below_getElem (h : Increasing f l) {i : ℕ} (hi : i < l.length) :
    below f (f l[i]) l = i := by
  induction l generalizing i with
  | nil => exact absurd hi (Nat.not_lt_zero i)
  | cons a l ih =>
    obtain ⟨ha, hl⟩ := List.pairwise_cons.mp h
    cases i with
    | zero =>
      rw [below, List.getElem_cons_zero, List.takeWhile_cons_of_neg (by simp), List.length_nil]
    | succ i =>
      have hi : i < l.length := by simpa using hi
      have hlt : f a < f l[i] := ha _ (List.getElem_mem hi)
      rw [below, List.getElem_cons_succ, List.takeWhile_cons_of_pos (by simpa using hlt),
        List.length_cons, ← below, ih hl]

/-- **An element with a new key** goes to the place of the key. -/
theorem Increasing.insertIdx (h : Increasing f l) {x : α} (hx : ∀ a ∈ l, f a ≠ f x) :
    Increasing f (l.insertIdx (below f (f x) l) x) := by
  induction l with
  | nil => exact List.pairwise_singleton _ _
  | cons a l ih =>
    obtain ⟨ha, hl⟩ := List.pairwise_cons.mp h
    obtain ⟨hax, hx⟩ := List.forall_mem_cons.mp hx
    by_cases hlt : f a < f x
    · have hbelow : below f (f x) (a :: l) = below f (f x) l + 1 := by
        rw [below, List.takeWhile_cons_of_pos (by simpa using hlt), List.length_cons, below]
      rw [hbelow, List.insertIdx_succ_cons]
      refine List.pairwise_cons.mpr ⟨fun b hb => ?_, ih hl hx⟩
      rcases List.eq_or_mem_of_mem_insertIdx hb with rfl | hb
      · exact hlt
      · exact ha b hb
    · have hbelow : below f (f x) (a :: l) = 0 := by
        rw [below, List.takeWhile_cons_of_neg (by simpa using hlt), List.length_nil]
      rw [hbelow, List.insertIdx_zero]
      have hxa : f x < f a := lt_of_le_of_ne (not_lt.mp hlt) (Ne.symm hax)
      refine List.pairwise_cons.mpr ⟨fun b hb => ?_, h⟩
      rcases List.mem_cons.mp hb with rfl | hb
      · exact hxa
      · exact hxa.trans (ha b hb)

/-! ### Stretches of a sorted list -/

/-- What is smaller than the key comes before its place. -/
theorem below_append {l' : List α} (h : ∀ a ∈ l, f a < k) : below f k (l ++ l') = l.length + below f k l' := by
  rw [below, List.takeWhile_append_of_pos fun a ha => decide_eq_true (h a ha), List.length_append, below]

/-- What is not smaller comes after it. -/
theorem below_append_of_le {l' : List α} (h : ∀ a ∈ l', k ≤ f a) : below f k (l ++ l') = below f k l := by
  induction l with
  | nil =>
    rw [List.nil_append]
    cases l' with
    | nil => rfl
    | cons a l' => rw [below, List.takeWhile_cons_of_neg (by simpa using h a List.mem_cons_self)]; rfl
  | cons a l ih =>
    by_cases ha : f a < k
    · rw [List.cons_append, below, List.takeWhile_cons_of_pos (by simpa using ha), List.length_cons, ← below, ih,
        below, below, List.takeWhile_cons_of_pos (by simpa using ha), List.length_cons]
    · rw [List.cons_append, below, List.takeWhile_cons_of_neg (by simpa using ha), below,
        List.takeWhile_cons_of_neg (by simpa using ha)]

/-- **An initial stretch** of the keys is an initial stretch of the list. -/
theorem Increasing.filter_append (h : Increasing f l) {p : α → Prop} [DecidablePred p]
    (hp : ∀ a b, f a < f b → p b → p a) : (l.filter fun a => p a) ++ (l.filter fun a => ¬p a) = l := by
  induction l with
  | nil => rfl
  | cons a l ih =>
    obtain ⟨ha, hl⟩ := List.pairwise_cons.mp h
    by_cases hpa : p a
    · rw [List.filter_cons_of_pos (by simpa using hpa), List.filter_cons_of_neg (by simpa using hpa), List.cons_append,
        ih hl]
    · -- nothing that follows is of the stretch
      have hnil : (l.filter fun b => p b) = [] :=
        List.filter_eq_nil_iff.mpr fun b hb hpb => hpa (hp a b (ha b hb) (of_decide_eq_true hpb))
      have hall : (l.filter fun b => ¬p b) = l :=
        List.filter_eq_self.mpr fun b hb => decide_eq_true fun hpb => hpa (hp a b (ha b hb) hpb)
      rw [List.filter_cons_of_neg (by simpa using hpa), List.filter_cons_of_pos (by simpa using hpa), hnil, hall,
        List.nil_append]

/-- Keys that increase differ. -/
theorem Increasing.nodup (h : Increasing f l) : (l.map f).Nodup :=
  List.pairwise_map.mpr (h.imp fun hlt => ne_of_lt hlt)

end TpccBench
