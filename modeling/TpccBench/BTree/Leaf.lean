import TpccBench.BTree.Model

/-!
# Leaves: their entries, and what the unused slots may hold

Everything a leaf does to its two arrays is described here by what it does to the
list `TpccBench.LeafNode.entries` of its live slots, and by what it leaves in the
slots that are not live.

The second half is the load-bearing one. `leaf_insert_nonfull` decides between
overwriting and inserting by one comparison with the slot at `index`, and that slot
is unused when the key belongs at the end. It then holds either the zero of the
constructor, or a key that a split moved to the leaf's right neighbour and that is
therefore at or above the upper bound of the leaf (`TpccBench.LeafNode.WellFormed`). So
the comparison is wrong for at most one key, zero, and
`TpccBench.LeafNode.Loses` says exactly when.
-/

namespace TpccBench

variable {K V : Type}

/-! ### Arrays -/

@[simp] theorem setSlot_same {α : Type} (a : ℕ → α) (i : ℕ) (x : α) : setSlot a i x i = x :=
  if_pos rfl

theorem setSlot_ne {α : Type} (a : ℕ → α) {i j : ℕ} (x : α) (h : j ≠ i) :
    setSlot a i x j = a j :=
  if_neg h

/-- The slots below `index` are left alone, those from there to `num_keys` move up by
one, and those above `num_keys` are left alone. -/
theorem shiftUp_apply {α : Type} (index : ℕ) (n : ℕ) (a : ℕ → α) (j : ℕ) :
    shiftUp index n a j = if index < j ∧ j ≤ n then a (j - 1) else a j := by
  induction n generalizing a with
  | zero => rw [shiftUp, if_neg (by omega)]
  | succ n ih =>
    rw [shiftUp]
    by_cases hn : index < n + 1
    · rw [if_pos hn, ih]
      rcases lt_trichotomy j (n + 1) with hj | rfl | hj
      · rw [setSlot_ne _ _ (by omega), setSlot_ne _ _ (by omega)]
        by_cases hi : index < j
        · rw [if_pos ⟨hi, by omega⟩, if_pos ⟨hi, by omega⟩]
        · rw [if_neg (fun h => hi h.1), if_neg (fun h => hi h.1)]
      · rw [if_neg (by omega), if_pos ⟨hn, le_refl _⟩, setSlot_same]
        rfl
      · rw [if_neg (by omega), if_neg (by omega), setSlot_ne _ _ (by omega)]
    · rw [if_neg hn, if_neg (by omega)]

/-- The first `n + 1` slots after an insertion at `index`. -/
theorem map_range_insert {α : Type} (a : ℕ → α) (x : α) {index n : ℕ} (h : index ≤ n) :
    (List.range (n + 1)).map (setSlot (shiftUp index n a) index x) =
      ((List.range n).map a).take index ++ x :: ((List.range n).map a).drop index := by
  refine List.ext_getElem (by simp; omega) fun j h₁ h₂ => ?_
  have hj : j < n + 1 := by simpa using h₁
  rw [List.getElem_map, List.getElem_range, setSlot, shiftUp_apply, List.getElem_append]
  rcases lt_trichotomy j index with hlt | rfl | hgt
  · rw [if_neg (by omega), if_neg (by omega), dif_pos (by simp; omega)]
    simp
  · rw [if_pos rfl, dif_neg (by simp)]
    simp [Nat.min_eq_left h]
  · rw [if_neg (by omega), if_pos (by omega), dif_neg (by simp; omega)]
    obtain ⟨d, rfl⟩ : ∃ d, j = index + d + 1 := ⟨j - index - 1, by omega⟩
    have hd : index + d + 1 - (((List.range n).map a).take index).length = d + 1 := by
      simp; omega
    simp only [hd]
    simp

/-- The first `n` slots after one of them is overwritten. -/
theorem map_range_setSlot {α : Type} (a : ℕ → α) (x : α) (index n : ℕ) :
    (List.range n).map (setSlot a index x) = ((List.range n).map a).set index x := by
  refine List.ext_getElem (by simp) fun j h₁ h₂ => ?_
  rw [List.getElem_map, List.getElem_range, List.getElem_set, setSlot]
  by_cases h : index = j
  · rw [if_pos h.symm, if_pos h]
  · rw [if_neg (Ne.symm h), if_neg h]
    simp

namespace LeafNode

/-- The two arrays side by side. -/
def slot (leaf : LeafNode K V) (i : ℕ) : K × Option V := (leaf.keys i, leaf.values i)

theorem entries_eq (leaf : LeafNode K V) :
    leaf.entries = (List.range leaf.numKeys).map leaf.slot := rfl

@[simp] theorem length_entries (leaf : LeafNode K V) : leaf.entries.length = leaf.numKeys := by
  simp [entries]

theorem entries_getElem (leaf : LeafNode K V) {i : ℕ} (h : i < leaf.entries.length) :
    leaf.entries[i] = (leaf.keys i, leaf.values i) := by
  simp [entries]

theorem mem_entries {leaf : LeafNode K V} {e : K × Option V} :
    e ∈ leaf.entries ↔ ∃ i < leaf.numKeys, e = (leaf.keys i, leaf.values i) := by
  simp [entries, eq_comm]

/-- The live slots up to an index, and the rest of them. -/
theorem take_entries (leaf : LeafNode K V) (i : ℕ) :
    leaf.entries.take i = (List.range (min i leaf.numKeys)).map leaf.slot := by
  rw [entries_eq, ← List.map_take, List.take_range]

theorem entries_truncate (leaf : LeafNode K V) {n : ℕ} (h : n ≤ leaf.numKeys) :
    ({ leaf with numKeys := n } : LeafNode K V).entries = leaf.entries.take n := by
  rw [take_entries, Nat.min_eq_left h]
  rfl

theorem entries_sibling [Zero K] (leaf : LeafNode K V) (n : ℕ) :
    (leaf.sibling n).entries = leaf.entries.drop n := by
  refine List.ext_getElem (by simp [sibling]) fun j h₁ h₂ => ?_
  have hj : j < leaf.numKeys - n := by simpa [sibling] using h₁
  simp [entries, sibling, hj]

variable [LinearOrder K]

/-- `i` is the place of the key among the live slots. -/
structure IsPosition (leaf : LeafNode K V) (key : K) (i : ℕ) : Prop where
  le : i ≤ leaf.numKeys
  below : ∀ j < i, leaf.keys j < key
  above : ∀ j, i ≤ j → j < leaf.numKeys → key ≤ leaf.keys j

theorem IsPosition.take_lt {leaf : LeafNode K V} {key : K} {i : ℕ} (h : leaf.IsPosition key i) :
    ∀ e ∈ leaf.entries.take i, e.1 < key := by
  intro e he
  rw [take_entries, Nat.min_eq_left h.le] at he
  obtain ⟨j, hj, rfl⟩ := List.mem_map.mp he
  exact h.below j (List.mem_range.mp hj)

theorem IsPosition.drop_ge {leaf : LeafNode K V} {key : K} {i : ℕ} (h : leaf.IsPosition key i) :
    ∀ e ∈ leaf.entries.drop i, key ≤ e.1 := by
  intro e he
  obtain ⟨j, hj, rfl⟩ := List.getElem_of_mem he
  have hlen : i + j < leaf.numKeys := by
    have := leaf.length_entries
    simp only [List.length_drop] at hj
    omega
  rw [List.getElem_drop, entries_getElem]
  exact h.above (i + j) (by omega) hlen

theorem leafPositionFrom_spec (key : K) (keys : ℕ → K) (n k : ℕ) :
    k ≤ leafPositionFrom key keys n k ∧ leafPositionFrom key keys n k ≤ k + n ∧
      (∀ j, k ≤ j → j < leafPositionFrom key keys n k → keys j < key) ∧
      (leafPositionFrom key keys n k < k + n → key ≤ keys (leafPositionFrom key keys n k)) := by
  induction n generalizing k with
  | zero => exact ⟨le_refl _, le_refl _, fun j h₁ h₂ => absurd h₂ (by simp [leafPositionFrom]; omega),
      fun h => absurd h (by simp [leafPositionFrom])⟩
  | succ n ih =>
    rw [leafPositionFrom]
    split
    · next hk =>
      obtain ⟨h₁, h₂, h₃, h₄⟩ := ih (k + 1)
      refine ⟨by omega, by omega, fun j hj hj' => ?_, fun h => h₄ (by omega)⟩
      rcases Nat.eq_or_lt_of_le hj with rfl | hj
      · exact hk
      · exact h₃ j hj hj'
    · next hk => exact ⟨le_refl _, by omega, fun j h₁ h₂ => by omega, fun _ => not_lt.mp hk⟩

/-- `leaf_position_for` finds the place of the key in a sorted leaf. -/
theorem isPosition (leaf : LeafNode K V) (hs : Assoc.Sorted leaf.entries) (key : K) :
    leaf.IsPosition key (leafPositionFor key leaf.keys leaf.numKeys) := by
  obtain ⟨-, h₂, h₃, h₄⟩ := leafPositionFrom_spec key leaf.keys leaf.numKeys 0
  refine ⟨by simpa [leafPositionFor] using h₂, fun j hj => h₃ j (Nat.zero_le _) hj, fun j hj hn => ?_⟩
  have hp : leafPositionFor key leaf.keys leaf.numKeys < leaf.numKeys := by omega
  have hkey := h₄ (by simpa [leafPositionFor] using hp)
  rcases Nat.eq_or_lt_of_le hj with hj | hj
  · exact hj ▸ hkey
  · have hpw := List.pairwise_iff_getElem.mp hs _ j (by simpa using hp) (by simpa using hn) hj
    rw [entries_getElem, entries_getElem] at hpw
    exact le_of_lt (lt_of_le_of_lt hkey hpw)

/-- The key is below every later live slot than the one at its place, when that one is
not the key. -/
theorem IsPosition.drop_gt {leaf : LeafNode K V} (hs : Assoc.Sorted leaf.entries) {key : K} {i : ℕ}
    (h : leaf.IsPosition key i) (hne : i < leaf.numKeys → leaf.keys i ≠ key) :
    ∀ e ∈ leaf.entries.drop i, key < e.1 := by
  intro e he
  refine lt_of_le_of_ne (h.drop_ge e he) fun hk => ?_
  obtain ⟨j, hj, rfl⟩ := List.getElem_of_mem he
  have hlen : i + j < leaf.numKeys := by
    have := leaf.length_entries
    simp only [List.length_drop] at hj
    omega
  rw [List.getElem_drop, entries_getElem] at hk
  refine hne (by omega) (le_antisymm ?_ (h.above i (le_refl _) (by omega)))
  rcases Nat.eq_zero_or_pos j with rfl | hpos
  · exact le_of_eq hk.symm
  · have hpw := List.pairwise_iff_getElem.mp hs i (i + j) (by rw [length_entries]; omega)
      (by simpa using hlen) (by omega)
    rw [entries_getElem, entries_getElem] at hpw
    exact le_of_lt (hk ▸ hpw)

/-! ### Insertion into a leaf that is not full -/

/-- The key belongs after all live slots, and the next slot, unused, holds it. -/
def Drops (leaf : LeafNode K V) (key : K) (i : ℕ) : Prop :=
  i = leaf.numKeys ∧ leaf.keys i = key

/-- **Insertion into a leaf that is not full** writes the key, unless it is taken for the
content of the first unused slot and lost; the unused slots that remain are the ones
that were there. -/
theorem leafInsertNonfull_spec {M : ℕ} {leaf : LeafNode K V} (hs : Assoc.Sorted leaf.entries)
    {key : K} {i : ℕ} (hi : leaf.IsPosition key i) (hM : leaf.numKeys < M) (value : Option V) :
    ∃ leaf' : LeafNode K V, leafInsertNonfull M leaf key value i = some leaf' ∧
      (leaf.Drops key i → leaf'.entries = leaf.entries) ∧
      (¬leaf.Drops key i → leaf'.entries = Assoc.upsert key value leaf.entries) ∧
      leaf.numKeys ≤ leaf'.numKeys ∧ leaf'.numKeys ≤ leaf.numKeys + 1 ∧
      ∀ j, leaf'.numKeys ≤ j → leaf'.keys j = leaf.keys j := by
  have hle := hi.le
  have hassert : leaf.numKeys < M ∧ i < M ∧ i ≤ leaf.numKeys := ⟨hM, by omega, hle⟩
  by_cases hk : leaf.keys i = key
  · -- the slot at the key's place holds the key: its value is overwritten
    refine ⟨{ leaf with values := setSlot leaf.values i value }, ?_, fun hd => ?_, fun hd => ?_,
      le_refl _, Nat.le_succ _, fun j _ => rfl⟩
    · rw [leafInsertNonfull, if_pos hassert, if_pos hk]
    · refine List.ext_getElem (by simp) fun j h₁ h₂ => ?_
      have hj : j < leaf.numKeys := by simpa using h₂
      have hne : j ≠ i := by have := hd.1; omega
      rw [entries_getElem, entries_getElem]
      exact congrArg (Prod.mk (leaf.keys j)) (setSlot_ne leaf.values value hne)
    · have hlt : i < leaf.numKeys := lt_of_le_of_ne hle fun he => hd ⟨he, hk⟩
      have hcut : leaf.entries = leaf.entries.take i ++ (key, leaf.values i) ::
          leaf.entries.drop (i + 1) := by
        have hlen : i < leaf.entries.length := by simpa using hlt
        have hget : leaf.entries[i] = (key, leaf.values i) := by
          rw [entries_getElem, hk]
        rw [← hget, ← List.drop_eq_getElem_cons, List.take_append_drop]
      have hnew : ({ leaf with values := setSlot leaf.values i value } : LeafNode K V).entries =
          leaf.entries.set i (key, value) := by
        rw [entries_eq, entries_eq, ← map_range_setSlot]
        refine List.map_congr_left fun j _ => ?_
        simp only [slot, setSlot]
        split
        · next hj => rw [hj, hk]
        · rfl
      rw [hnew]
      conv_rhs => rw [hcut, Assoc.upsert_at hi.take_lt]
      rw [List.set_eq_take_append_cons_drop, if_pos (by simpa using hlt)]
  · -- the key is new: the slots above its place move up
    refine ⟨_, by rw [leafInsertNonfull, if_pos hassert, if_neg hk], fun hd => absurd hd.2 hk,
      fun _ => ?_, Nat.le_succ _, le_refl _, fun j hj => ?_⟩
    · rw [entries_eq]
      have hslot : (⟨leaf.numKeys + 1, setSlot (shiftUp i leaf.numKeys leaf.keys) i key,
          setSlot (shiftUp i leaf.numKeys leaf.values) i value⟩ : LeafNode K V).slot =
          setSlot (shiftUp i leaf.numKeys leaf.slot) i (key, value) := by
        funext j
        simp only [slot, setSlot, shiftUp_apply]
        split
        · rfl
        · split <;> rfl
      rw [hslot, map_range_insert _ _ hle, ← entries_eq]
      conv_rhs => rw [← List.take_append_drop i leaf.entries]
      exact (Assoc.upsert_cut hi.take_lt (hi.drop_gt hs fun _ => hk)).symm
    · have hj : leaf.numKeys + 1 ≤ j := hj
      change setSlot (shiftUp i leaf.numKeys leaf.keys) i key j = leaf.keys j
      rw [setSlot_ne _ _ (by omega), shiftUp_apply, if_neg (by omega)]

end LeafNode

end TpccBench
