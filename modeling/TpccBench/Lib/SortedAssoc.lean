import Mathlib.Order.Lattice
import Mathlib.Data.List.Basic
import Mathlib.Tactic

/-!
# Association lists in key order

An ordered index denotes the list of its entries in increasing key order. This
file has the three operations such a list is asked for – look a key up, write a
key, find the last entry below a key – and how each of them behaves on an
*append*, which is what a search tree built by concatenating subtrees needs: an
operation on the whole list is an operation on the one part its key belongs to.

Lookup is `List.lookup`; the order of the entries is `TpccBench.Assoc.Sorted`.
-/

namespace TpccBench

namespace Assoc

variable {K V : Type} [LinearOrder K]

/-- The keys of the list increase strictly. -/
def Sorted (l : List (K × V)) : Prop := l.Pairwise fun a b => a.1 < b.1

/-- Write `v` at `k`, in place when `k` is there and in key order when it is not. -/
def upsert (k : K) (v : V) : List (K × V) → List (K × V)
  | [] => [(k, v)]
  | (a, b) :: l =>
    if a < k then (a, b) :: upsert k v l else if a = k then (k, v) :: l else (k, v) :: (a, b) :: l

/-- The last entry with a key below `x`. -/
def lastBelow (x : K) (l : List (K × V)) : Option (K × V) :=
  (l.filter fun e => decide (e.1 < x)).getLast?

/-- The first entry with a key at or above `x`. -/
def lowerBound (x : K) (l : List (K × V)) : Option (K × V) :=
  l.find? fun e => decide (x ≤ e.1)

/-! ### Lookup -/

theorem lookup_cons (a : K) (b : V) (l : List (K × V)) (k : K) :
    ((a, b) :: l).lookup k = if k = a then some b else l.lookup k := by
  rw [List.lookup_cons]
  by_cases h : k = a
  · rw [if_pos h, beq_iff_eq.mpr h]
  · rw [if_neg h, beq_eq_false_iff_ne.mpr h]

theorem lookup_eq_none_of_ne {l : List (K × V)} {k : K} (h : ∀ e ∈ l, e.1 ≠ k) :
    l.lookup k = none := by
  rw [List.lookup_eq_none_iff]
  intro e he
  simpa using fun hk => h e he hk.symm

theorem lookup_append_left {l₁ l₂ : List (K × V)} {k : K} (h : ∀ e ∈ l₂, e.1 ≠ k) :
    (l₁ ++ l₂).lookup k = l₁.lookup k := by
  rw [List.lookup_append, lookup_eq_none_of_ne h, Option.or_none]

theorem lookup_append_right {l₁ l₂ : List (K × V)} {k : K} (h : ∀ e ∈ l₁, e.1 ≠ k) :
    (l₁ ++ l₂).lookup k = l₂.lookup k := by
  rw [List.lookup_append, lookup_eq_none_of_ne h, Option.none_or]

theorem mem_of_lookup {l : List (K × V)} {k : K} {v : V} (h : l.lookup k = some v) :
    (k, v) ∈ l := by
  obtain ⟨l₁, l₂, rfl, -⟩ := List.lookup_eq_some_iff.mp h
  simp

theorem lookup_of_mem {l : List (K × V)} (hs : Sorted l) {k : K} {v : V} (h : (k, v) ∈ l) :
    l.lookup k = some v := by
  obtain ⟨l₁, l₂, rfl⟩ := List.append_of_mem h
  refine List.lookup_eq_some_iff.mpr ⟨l₁, l₂, rfl, fun e he => ?_⟩
  have hlt : e.1 < k := (List.pairwise_append.mp hs).2.2 e he (k, v) (by simp)
  simpa using ne_of_gt hlt

theorem mem_keys_iff {l : List (K × V)} {k : K} : k ∈ l.map Prod.fst ↔ (l.lookup k).isSome := by
  induction l with
  | nil => simp
  | cons e l ih =>
    obtain ⟨a, b⟩ := e
    rw [lookup_cons, List.map_cons, List.mem_cons, ih]
    by_cases hk : k = a
    · simp [hk]
    · simp [hk]

/-! ### Writing a key -/

theorem lookup_upsert (k : K) (v : V) (l : List (K × V)) (k' : K) :
    (upsert k v l).lookup k' = if k' = k then some v else l.lookup k' := by
  induction l with
  | nil => rw [upsert, lookup_cons]
  | cons e l ih =>
    obtain ⟨a, b⟩ := e
    rw [upsert]
    split
    · next hak =>
      rw [lookup_cons, lookup_cons, ih]
      by_cases ha : k' = a
      · rw [if_pos ha, if_pos ha, if_neg (by rw [ha]; exact ne_of_lt hak)]
      · rw [if_neg ha, if_neg ha]
    · split
      · next hk =>
        rw [lookup_cons, lookup_cons, hk]
        by_cases hk' : k' = k
        · rw [if_pos hk', if_pos hk']
        · rw [if_neg hk', if_neg hk', if_neg hk']
      · rw [lookup_cons]

theorem mem_upsert {k : K} {v : V} {l : List (K × V)} {e : K × V} (h : e ∈ upsert k v l) :
    e = (k, v) ∨ e ∈ l := by
  induction l with
  | nil => simpa [upsert] using h
  | cons x l ih =>
    obtain ⟨a, b⟩ := x
    rw [upsert] at h
    split at h
    · rcases List.mem_cons.mp h with rfl | h
      · exact Or.inr List.mem_cons_self
      · exact (ih h).imp_right fun h => List.mem_cons_of_mem _ h
    · split at h
      · exact (List.mem_cons.mp h).imp_right fun h => List.mem_cons_of_mem _ h
      · exact List.mem_cons.mp h

theorem sorted_upsert {k : K} {v : V} {l : List (K × V)} (h : Sorted l) :
    Sorted (upsert k v l) := by
  induction l with
  | nil => simp [upsert, Sorted]
  | cons x l ih =>
    obtain ⟨a, b⟩ := x
    obtain ⟨hx, hl⟩ := List.pairwise_cons.mp h
    rw [upsert]
    split
    · next hak =>
      refine List.pairwise_cons.mpr ⟨fun e he => ?_, ih hl⟩
      rcases mem_upsert he with rfl | he
      · exact hak
      · exact hx e he
    · next hak =>
      split
      · next hk => exact List.pairwise_cons.mpr ⟨fun e he => hk ▸ hx e he, hl⟩
      · next hk =>
        have hka : k < a := lt_of_le_of_ne (not_lt.mp hak) (Ne.symm hk)
        refine List.pairwise_cons.mpr ⟨fun e he => ?_, h⟩
        rcases List.mem_cons.mp he with rfl | he
        · exact hka
        · exact lt_trans hka (hx e he)

theorem upsert_append_right {k : K} {v : V} {l₁ l₂ : List (K × V)} (h : ∀ e ∈ l₁, e.1 < k) :
    upsert k v (l₁ ++ l₂) = l₁ ++ upsert k v l₂ := by
  induction l₁ with
  | nil => rfl
  | cons x l₁ ih =>
    obtain ⟨a, b⟩ := x
    have ha : a < k := h (a, b) List.mem_cons_self
    rw [List.cons_append, upsert, if_pos ha, ih fun e he => h e (List.mem_cons_of_mem _ he),
      List.cons_append]

theorem upsert_append_left {k : K} {v : V} {l₁ l₂ : List (K × V)} (h : ∀ e ∈ l₂, k < e.1) :
    upsert k v (l₁ ++ l₂) = upsert k v l₁ ++ l₂ := by
  induction l₁ with
  | nil =>
    cases l₂ with
    | nil => rfl
    | cons x l₂ =>
      obtain ⟨a, b⟩ := x
      have ha : k < a := h (a, b) List.mem_cons_self
      simp only [List.nil_append, upsert, if_neg (not_lt_of_gt ha), if_neg (ne_of_gt ha),
        List.cons_append]
  | cons x l₁ ih =>
    obtain ⟨a, b⟩ := x
    rw [List.cons_append, upsert, upsert]
    split
    · rw [ih, List.cons_append]
    · split <;> rfl

/-- Writing at the cut between the smaller and the larger entries inserts there. -/
theorem upsert_cut {k : K} {v : V} {l₁ l₂ : List (K × V)} (h₁ : ∀ e ∈ l₁, e.1 < k)
    (h₂ : ∀ e ∈ l₂, k < e.1) : upsert k v (l₁ ++ l₂) = l₁ ++ (k, v) :: l₂ := by
  rw [upsert_append_right h₁]
  cases l₂ with
  | nil => rfl
  | cons x l₂ =>
    obtain ⟨a, b⟩ := x
    have ha : k < a := h₂ (a, b) List.mem_cons_self
    rw [upsert, if_neg (not_lt_of_gt ha), if_neg (ne_of_gt ha)]

/-- Writing at a key that is there replaces its entry. -/
theorem upsert_at {k : K} {v w : V} {l₁ l₂ : List (K × V)} (h₁ : ∀ e ∈ l₁, e.1 < k) :
    upsert k v (l₁ ++ (k, w) :: l₂) = l₁ ++ (k, v) :: l₂ := by
  rw [upsert_append_right h₁, upsert, if_neg (lt_irrefl k), if_pos rfl]

theorem exists_mem_upsert {k : K} {v : V} {l : List (K × V)} {e : K × V} (h : e ∈ l) :
    ∃ e' ∈ upsert k v l, e'.1 = e.1 := by
  induction l with
  | nil => simp at h
  | cons x l ih =>
    obtain ⟨a, b⟩ := x
    rw [upsert]
    split
    · rcases List.mem_cons.mp h with rfl | h
      · exact ⟨(a, b), List.mem_cons_self, rfl⟩
      · obtain ⟨e', he', hk⟩ := ih h
        exact ⟨e', List.mem_cons_of_mem _ he', hk⟩
    · split
      · next hak =>
        rcases List.mem_cons.mp h with rfl | h
        · exact ⟨(k, v), List.mem_cons_self, hak.symm⟩
        · exact ⟨e, List.mem_cons_of_mem _ h, rfl⟩
      · exact ⟨e, List.mem_cons_of_mem _ h, rfl⟩

/-- The least key stays the least when what is written is not below it. -/
theorem head_upsert {k s : K} {v : V} {l : List (K × V)} (hs : s ≤ k)
    (h : l.head?.map Prod.fst = some s) : (upsert k v l).head?.map Prod.fst = some s := by
  cases l with
  | nil => simp at h
  | cons x l =>
    obtain ⟨a, b⟩ := x
    obtain rfl : a = s := by simpa using h
    rw [upsert]
    rcases lt_or_eq_of_le hs with hlt | rfl
    · rw [if_pos hlt]
      rfl
    · rw [if_neg (lt_irrefl _), if_pos rfl]
      rfl

theorem head_le_of_sorted {s : K} {l : List (K × V)} (hs : Sorted l)
    (h : l.head?.map Prod.fst = some s) : ∀ e ∈ l, s ≤ e.1 := by
  cases l with
  | nil => simp at h
  | cons x l =>
    obtain rfl : x.1 = s := by simpa using h
    intro e he
    rcases List.mem_cons.mp he with rfl | he
    · exact le_refl _
    · exact le_of_lt ((List.pairwise_cons.mp hs).1 e he)

/-! ### The last entry below a key -/

theorem lastBelow_append_left {x : K} {l₁ l₂ : List (K × V)} (h : ∀ e ∈ l₂, x ≤ e.1) :
    lastBelow x (l₁ ++ l₂) = lastBelow x l₁ := by
  have h₂ : l₂.filter (fun e => decide (e.1 < x)) = [] := by
    rw [List.filter_eq_nil_iff]
    intro e he
    simpa using h e he
  rw [lastBelow, List.filter_append, h₂, List.append_nil, lastBelow]

theorem lastBelow_append_right {x : K} {l₁ l₂ : List (K × V)} (h : ∃ e ∈ l₂, e.1 < x) :
    lastBelow x (l₁ ++ l₂) = lastBelow x l₂ := by
  obtain ⟨e, he, hx⟩ := h
  have h₂ : l₂.filter (fun e => decide (e.1 < x)) ≠ [] :=
    List.ne_nil_of_mem (List.mem_filter.mpr ⟨he, by simpa using hx⟩)
  rw [lastBelow, List.filter_append, List.getLast?_append_of_ne_nil _ h₂, lastBelow]

theorem mem_of_lastBelow {x : K} {l : List (K × V)} {e : K × V} (h : lastBelow x l = some e) :
    e ∈ l ∧ e.1 < x := by
  obtain ⟨hm, hx⟩ := List.mem_filter.mp (List.mem_of_getLast? h)
  exact ⟨hm, by simpa using hx⟩

theorem lastBelow_eq_none {x : K} {l : List (K × V)} (h : lastBelow x l = none) :
    ∀ e ∈ l, x ≤ e.1 := by
  intro e he
  rw [lastBelow, List.getLast?_eq_none_iff, List.filter_eq_nil_iff] at h
  simpa using h e he

/-- No entry below `x` is above the last one. -/
theorem le_of_lastBelow {x : K} {l : List (K × V)} (hs : Sorted l) {e : K × V}
    (h : lastBelow x l = some e) : ∀ e' ∈ l, e'.1 < x → e'.1 ≤ e.1 := by
  intro e' he' hx
  obtain ⟨l₁, hl⟩ := List.getLast?_eq_some_iff.mp h
  have hmem : e' ∈ l.filter fun e => decide (e.1 < x) :=
    List.mem_filter.mpr ⟨he', by simpa using hx⟩
  have hpw : (l.filter fun e => decide (e.1 < x)).Pairwise fun a b => a.1 < b.1 :=
    List.Pairwise.filter _ hs
  rw [hl] at hmem hpw
  rcases List.mem_append.mp hmem with h' | h'
  · exact le_of_lt ((List.pairwise_append.mp hpw).2.2 e' h' e (by simp))
  · exact le_of_eq (by rw [List.mem_singleton.mp h'])

/-- What is below `x` is what is below the last entry below it, and that entry. -/
theorem filter_lt_of_lastBelow {x : K} {l : List (K × V)} (hs : Sorted l) {e : K × V}
    (h : lastBelow x l = some e) :
    l.filter (fun a => decide (a.1 < x)) = l.filter (fun a => decide (a.1 < e.1)) ++ [e] := by
  obtain ⟨l₁, hl⟩ := List.getLast?_eq_some_iff.mp h
  have hpw : (l.filter fun a => decide (a.1 < x)).Pairwise fun a b => a.1 < b.1 :=
    List.Pairwise.filter _ hs
  have hnarrow : l.filter (fun a => decide (a.1 < e.1)) =
      (l.filter fun a => decide (a.1 < x)).filter fun a => decide (a.1 < e.1) := by
    rw [List.filter_filter]
    refine List.filter_congr fun a _ => ?_
    have hlt : a.1 < e.1 → a.1 < x := fun ha => lt_trans ha (mem_of_lastBelow h).2
    by_cases ha : a.1 < e.1
    · simp [ha, hlt ha]
    · simp [ha]
  rw [hl] at hpw
  have hbelow : ∀ a ∈ l₁, a.1 < e.1 := fun a ha =>
    (List.pairwise_append.mp hpw).2.2 a ha e (List.mem_singleton_self e)
  rw [hnarrow, hl, List.filter_append, List.filter_eq_self.mpr fun a ha => by simpa using hbelow a ha,
    List.filter_eq_nil_iff.mpr fun a ha => by simp [List.mem_singleton.mp ha], List.append_nil]

/-! ### Tombstones -/

/-- The entries whose value is not null. -/
def live (l : List (K × Option V)) : List (K × V) := l.filterMap fun e => e.2.map (Prod.mk e.1)

omit [LinearOrder K] in
theorem mem_live {l : List (K × Option V)} {e : K × V} : e ∈ live l ↔ (e.1, some e.2) ∈ l := by
  obtain ⟨k, v⟩ := e
  constructor
  · intro h
    obtain ⟨⟨k', v'⟩, hm, he⟩ := List.mem_filterMap.mp h
    obtain ⟨w, rfl, hw⟩ := Option.map_eq_some_iff.mp he
    obtain ⟨rfl, rfl⟩ := Prod.mk.injEq .. ▸ hw
    exact hm
  · intro h
    exact List.mem_filterMap.mpr ⟨(k, some v), h, rfl⟩

theorem sorted_live {l : List (K × Option V)} (hs : Sorted l) : Sorted (live l) := by
  refine List.Pairwise.filterMap _ (fun a b hab a' ha' b' hb' => ?_) hs
  obtain ⟨v, -, rfl⟩ := Option.map_eq_some_iff.mp ha'
  obtain ⟨w, -, rfl⟩ := Option.map_eq_some_iff.mp hb'
  exact hab

/-- Below a tombstone the search for a live entry starts again at the tombstone. -/
theorem lastBelow_live_of_tombstone {l : List (K × Option V)} (hs : Sorted l) {x k : K}
    (h : lastBelow x l = some (k, none)) : lastBelow x (live l) = lastBelow k (live l) := by
  obtain ⟨hmem, hkx⟩ := mem_of_lastBelow h
  refine congrArg List.getLast? (List.filter_congr fun e he => ?_)
  have hel := mem_live.mp he
  have hiff : e.1 < x ↔ e.1 < k := by
    constructor
    · intro hex
      refine lt_of_le_of_ne (le_of_lastBelow hs h _ hel hex) fun hek => ?_
      have h₁ := lookup_of_mem hs hel
      have h₂ := lookup_of_mem hs hmem
      rw [hek, h₂] at h₁
      simp at h₁
    · exact fun hek => lt_trans hek hkx
  simpa using hiff

/-- The last live entry below a key, when the last entry below it is live. -/
theorem lastBelow_live_of_live {l : List (K × Option V)} {x k : K} {v : V}
    (h : lastBelow x l = some (k, some v)) : lastBelow x (live l) = some (k, v) := by
  obtain ⟨l₁, hl⟩ := List.getLast?_eq_some_iff.mp h
  have hcomm : (live l).filter (fun e => decide (e.1 < x)) =
      live (l.filter fun e => decide (e.1 < x)) := by
    simp only [live, List.filter_filterMap, List.filterMap_filter]
    refine List.filterMap_congr fun e _ => ?_
    obtain ⟨a, b⟩ := e
    by_cases hax : a < x
    · cases b <;> simp [hax]
    · cases b <;> simp [hax, not_lt.mp hax]
  rw [lastBelow, hcomm, hl]
  simp [live]

theorem lastBelow_live_of_none {l : List (K × Option V)} {x : K} (h : lastBelow x l = none) :
    lastBelow x (live l) = none := by
  have hge := lastBelow_eq_none h
  rw [lastBelow, List.getLast?_eq_none_iff, List.filter_eq_nil_iff]
  intro e he
  simpa using hge _ (mem_live.mp he)

end Assoc

end TpccBench
