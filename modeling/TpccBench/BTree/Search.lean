import TpccBench.BTree.Shape

/-!
# What a well-formed tree finds

`find`, `del` and `findLastLessThan` go down a single path. Each of them is described
here by the list of the entries of the tree, for a well-formed tree: `find` looks its
key up in the list, `del` of a stored key writes a tombstone into it, and one descent
of `findLastLessThan` reaches the last entry below its key, tombstone or not
(`TpccBench.Node.lastSlotBelow_spec`). That last one is where the separators have to be
exact: a child is entered whose left separator is below the key, and because that
separator *is* the least key of the child, something below the key is found in it and
the search never has to back up.

`findLastLessThan` starts again at each tombstone it meets, with a smaller key that is
stored in the tree; so it ends.
-/

namespace TpccBench

variable {K V : Type} [LinearOrder K]

namespace Node

variable {N M : ℕ}

/-- What `find` reports of an entry list. -/
def report (l : List (K × Option V)) (key : K) (value : Option V) : Bool × Option V :=
  match l.lookup key with
  | none => (false, value)
  | some v => (v.isSome, v)

theorem leaf_lookup {leaf : LeafNode K V} (hs : Assoc.Sorted leaf.entries) (key : K) :
    leaf.entries.lookup key =
      (let i := leafPositionFor key leaf.keys leaf.numKeys
       if i < leaf.numKeys ∧ leaf.keys i = key then some (leaf.values i) else none) := by
  have hpos := leaf.isPosition hs key
  generalize leafPositionFor key leaf.keys leaf.numKeys = i at hpos
  change _ = if i < leaf.numKeys ∧ leaf.keys i = key then some (leaf.values i) else none
  split
  · next h => exact Assoc.lookup_of_mem hs (LeafNode.mem_entries.mpr ⟨i, h.1, by rw [h.2]⟩)
  · next h =>
    refine Assoc.lookup_eq_none_of_ne fun e he hk => ?_
    rw [← List.take_append_drop i leaf.entries, List.mem_append] at he
    rcases he with he | he
    · exact ne_of_lt (hpos.take_lt e he) hk
    · exact ne_of_gt (hpos.drop_gt hs (fun hi hkey => h ⟨hi, hkey⟩) e he) hk

variable [Zero K]

/-- **`find` looks the key up.** -/
theorem find_spec (d : ℕ) {root : Bool} {lo : WithBot K} {node : Node K V d} {hi : WithTop K}
    (h : node.WellFormed N M d root lo hi) {key : K} (hk : Chain.Within lo hi key)
    (value : Option V) : find d node key value = report (contents d node) key value := by
  induction d generalizing root lo hi with
  | zero =>
    have h : LeafNode.WellFormed M root lo node hi := h
    have hl := leaf_lookup h.sorted key
    simp only at hl
    rw [find, report, contents, hl]
    split <;> rfl
  | succ d ih =>
    obtain ⟨a, b, pre, post, hr, hab, hpre, hpost⟩ :=
      Chain.route (separates d) (bounded d) h.2.2 hk
    have hchild := ih hr.child hab
    rw [find]
    refine hchild.trans ?_
    have hcont : contents (d + 1) node = pre ++ contents d (Spine.childAt node.first node.rest
        (Spine.position key node.rest)) ++ post := hr.holds
    rw [report, report, hcont, Assoc.lookup_append_left fun e he => ne_of_gt (hpost e he),
      Assoc.lookup_append_right fun e he => ne_of_lt (hpre e he)]

/-- A key that a leaf loses is not found in it. -/
theorem find_of_loses (d : ℕ) {node : Node K V d} {key : K} (hl : node.Loses M d key)
    (value : Option V) : find d node key value = (false, value) := by
  induction d with
  | zero =>
    rw [find, if_neg fun h => ?_]
    exact absurd h.1 (by rw [hl.1]; exact lt_irrefl _)
  | succ d ih =>
    rw [find]
    exact ih hl

/-- **`del` of a stored key** reports true, and leaves a tombstone. -/
theorem del_spec (d : ℕ) {root : Bool} {lo : WithBot K} {node : Node K V d} {hi : WithTop K}
    (h : node.WellFormed N M d root lo hi) {key : K} (hk : Chain.Within lo hi key)
    (hstored : ((contents d node).lookup key).isSome) :
    ∃ node', del M d node key = some (true, node') ∧ node'.WellFormed N M d root lo hi ∧
      contents d node' = Assoc.upsert key none (contents d node) := by
  induction d generalizing root lo hi with
  | zero =>
    have h : LeafNode.WellFormed M root lo node hi := h
    have hl := leaf_lookup h.sorted key
    simp only at hl
    have hpos := LeafNode.isPosition node h.sorted key
    rw [contents, hl] at hstored
    generalize hi' : leafPositionFor key (LeafNode.keys node) (LeafNode.numKeys node) = i at *
    have hin : i < LeafNode.numKeys node ∧ LeafNode.keys node i = key := by
      by_contra hc
      rw [if_neg hc] at hstored
      exact Bool.noConfusion hstored
    let leaf : LeafNode K V := node
    let leaf' : LeafNode K V := { leaf with values := setSlot leaf.values i none }
    have hentries : leaf'.entries = leaf.entries.set i (key, none) := by
      rw [LeafNode.entries_eq, LeafNode.entries_eq, ← map_range_setSlot]
      refine List.map_congr_left fun j _ => ?_
      simp only [LeafNode.slot, setSlot, leaf']
      split
      · next hj => rw [hj, ← hin.2]
      · rfl
    have hup : leaf'.entries = Assoc.upsert key none leaf.entries := by
      have hlen : i < leaf.entries.length := by simpa using hin.1
      have hcut : leaf.entries = leaf.entries.take i ++ (key, leaf.values i) ::
          leaf.entries.drop (i + 1) := by
        have hget : leaf.entries[i] = (key, leaf.values i) := by
          rw [LeafNode.entries_getElem, hin.2]
        rw [← hget, ← List.drop_eq_getElem_cons, List.take_append_drop]
      rw [hentries]
      conv_rhs => rw [hcut, Assoc.upsert_at hpos.take_lt]
      rw [List.set_eq_take_append_cons_drop, if_pos hlen]
    refine ⟨leaf', ?_, ?_, hup⟩
    · have hsize := h.size
      rw [del]
      simp only [hi', if_pos hin.2]
      rw [if_pos (by omega)]
    · refine ⟨h.size, h.filled, ?_, fun s hs => ?_, fun e he => ?_, h.unused⟩
      · rw [hup]
        exact Assoc.sorted_upsert h.sorted
      · rw [hup]
        exact Assoc.head_upsert (WithBot.coe_le_coe.mp (hs ▸ hk.1)) (h.least s hs)
      · rw [hup] at he
        rcases Assoc.mem_upsert he with rfl | he
        · exact hk.2
        · exact h.below e he
  | succ d ih =>
    obtain ⟨a, b, pre, post, hr, hab, hpre, hpost⟩ :=
      Chain.route (separates d) (bounded d) h.2.2 hk
    have hcont : contents (d + 1) node = pre ++ contents d (Spine.childAt node.first node.rest
        (Spine.position key node.rest)) ++ post := hr.holds
    rw [hcont, Assoc.lookup_append_left fun e he => ne_of_gt (hpost e he),
      Assoc.lookup_append_right fun e he => ne_of_lt (hpre e he)] at hstored
    obtain ⟨child, hdel, hwf, hup⟩ := ih hr.child hab hstored
    refine ⟨Spine.setChild node (Spine.position key node.rest) child, ?_,
      ⟨?_, ?_, hr.set child hwf⟩, ?_⟩
    · rw [del]
      change (del M d (Spine.childAt node.first node.rest _) key).map _ = _
      rw [hdel, Option.map_some]
    · exact le_of_eq_of_le (Spine.length_setAt ..) h.1
    · exact le_of_le_of_eq h.2.1 (Spine.length_setAt ..).symm
    · refine (hr.holds_set child).trans ?_
      rw [hup, hcont, ← Assoc.upsert_append_right hpre, ← Assoc.upsert_append_left hpost]

omit [Zero K] in
theorem leaf_lastBelow {leaf : LeafNode K V} {key : K} {i : ℕ} (h : leaf.IsPosition key i) :
    Assoc.lastBelow key leaf.entries =
      (before i).map fun p => (leaf.keys p, leaf.values p) := by
  have hfilter : leaf.entries.filter (fun e => decide (e.1 < key)) = leaf.entries.take i := by
    conv_lhs => rw [← List.take_append_drop i leaf.entries]
    rw [List.filter_append, List.filter_eq_self.mpr fun e he => by simpa using h.take_lt e he,
      List.filter_eq_nil_iff.mpr fun e he => by simpa using h.drop_ge e he, List.append_nil]
  rw [Assoc.lastBelow, hfilter, LeafNode.take_entries, Nat.min_eq_left h.le]
  cases i with
  | zero => rfl
  | succ i => simp [before, List.range_succ, LeafNode.slot]

/-- **One descent of `findLastLessThan`** reaches the last entry below the key; no
assertion fails. -/
theorem lastSlotBelow_spec (d : ℕ) {root : Bool} {lo : WithBot K} {node : Node K V d}
    {hi : WithTop K} (h : node.WellFormed N M d root lo hi) (key : K) :
    lastSlotBelow d node key = some (Assoc.lastBelow key (contents d node)) := by
  induction d generalizing root lo hi with
  | zero =>
    have h : LeafNode.WellFormed M root lo node hi := h
    have hpos := LeafNode.isPosition node h.sorted key
    rw [contents, leaf_lastBelow hpos, lastSlotBelow]
    generalize leafPositionFor key (LeafNode.keys node) (LeafNode.numKeys node) = i at *
    cases i with
    | zero => rfl
    | succ p =>
      have hp : p < LeafNode.numKeys node := Nat.lt_of_succ_le hpos.le
      have hlt : LeafNode.keys node p < key := hpos.below p (Nat.lt_succ_self p)
      simp only [before, Option.bind_some, Option.map_some]
      rw [if_neg fun hc => ne_of_gt hlt hc.2]
      simp only [if_pos hp, if_pos hlt]
  | succ d ih =>
    obtain ⟨a, b, pre, post, hr, ha, hpost, hkeys⟩ :=
      Chain.route_below (separates d) (bounded d) (k := key) h.2.2
    have hcont : contents (d + 1) node = pre ++ contents d (Spine.childAt node.first node.rest
        (Spine.positionBelow key node.rest)) ++ post := hr.holds
    have hassert : Spine.positionBelow key (Spine.rest node) = 0 ∨
        ((Spine.keys node)[Spine.positionBelow key (Spine.rest node) - 1]?).any
          (fun s => decide (s < key)) := by
      rcases Nat.eq_zero_or_pos (Spine.positionBelow key (Spine.rest node)) with h0 | hpos
      · exact Or.inl h0
      · obtain ⟨s, hs, hlt⟩ := hkeys _ (Nat.sub_add_cancel hpos).symm
        have hs : (Spine.keys node)[Spine.positionBelow key (Spine.rest node) - 1]? = some s := hs
        exact Or.inr (by rw [hs]; simpa using hlt)
    rw [lastSlotBelow]
    simp only [if_pos hassert]
    refine (ih hr.child).trans (congrArg some ?_)
    rw [hcont, Assoc.lastBelow_append_left hpost]
    rcases ha with ⟨rfl, -⟩ | ⟨s, rfl, hs⟩
    · rw [List.nil_append]
    · -- the child's least key is its left separator, and that is below the key
      obtain ⟨e, he, hk⟩ := exists_least d hr.child
      exact (Assoc.lastBelow_append_right ⟨e, he, hk ▸ hs⟩).symm

omit [Zero K] in
/-- The slot a descent stops at is stored in the tree, below the key. -/
theorem mem_of_lastSlotBelow (d : ℕ) {node : Node K V d} {key : K} {e : K × Option V}
    (h : lastSlotBelow d node key = some (some e)) : e ∈ contents d node ∧ e.1 < key := by
  induction d with
  | zero =>
    rw [lastSlotBelow] at h
    split at h
    · exact absurd h (by simp)
    · next p hp =>
      split at h
      · next hpn =>
        split at h
        · next hlt =>
          obtain rfl := Option.some.inj (Option.some.inj h)
          exact ⟨LeafNode.mem_entries.mpr ⟨p, hpn, rfl⟩, hlt⟩
        · exact absurd h (by simp)
      · exact absurd h (by simp)
  | succ d ih =>
    rw [lastSlotBelow] at h
    split at h
    · obtain ⟨hmem, hlt⟩ := ih h
      exact ⟨Spine.mem_flatten_of_childAt _ _ _ hmem, hlt⟩
    · exact absurd h (by simp)

end Node

namespace BPlusTree

variable {N M : ℕ}

/-- The number of stored keys below a key, which bounds how often `findLastLessThan`
starts again. -/
def storedBelow (t : BPlusTree K V) (key : K) : ℕ :=
  (t.contents.filter fun e => decide (e.1 < key)).length

theorem storedBelow_lt {t : BPlusTree K V} {key : K} {e : K × Option V} (hmem : e ∈ t.contents)
    (hlt : e.1 < key) : t.storedBelow e.1 < t.storedBelow key := by
  have hfilter : t.contents.filter (fun x => decide (x.1 < e.1)) =
      (t.contents.filter fun x => decide (x.1 < key)).filter fun x => decide (x.1 < e.1) := by
    rw [List.filter_filter]
    refine List.filter_congr fun x _ => ?_
    by_cases hx : x.1 < e.1
    · simp [hx, lt_trans hx hlt]
    · simp [hx]
  rw [storedBelow, storedBelow, hfilter]
  refine List.length_filter_lt_length_iff_exists.mpr ⟨e, ?_, by simp⟩
  exact List.mem_filter.mpr ⟨hmem, by simpa using hlt⟩

/-- `findLastLessThan`, with what the two output variables hold before and after; `none`
is a failed assertion. -/
def findLastLessThan (t : BPlusTree K V) (key : K) (value : Option V) (outKey : K) :
    Option (Bool × Option V × K) :=
  match _h : Node.lastSlotBelow t.depth t.root key with
  | none => none
  | some none => some (false, value, outKey)
  | some (some (k, some v)) => some (true, some v, k)
  -- a deleted key: try again with the key of the tombstone
  | some (some (k, none)) => findLastLessThan t k value outKey
termination_by t.storedBelow key
decreasing_by
  obtain ⟨hmem, hlt⟩ := Node.mem_of_lastSlotBelow t.depth _h
  exact storedBelow_lt (e := (k, none)) hmem hlt

variable [Zero K]

/-- The tree is well formed. -/
def WellFormed (N M : ℕ) (t : BPlusTree K V) : Prop :=
  Node.WellFormed N M t.depth true ⊥ t.root ⊤

/-- The tree loses the key: an insertion of it would be taken for the overwriting of an
unused slot. -/
def Loses (M : ℕ) (t : BPlusTree K V) (key : K) : Prop := Node.Loses M t.depth t.root key

instance (M : ℕ) (t : BPlusTree K V) (key : K) : Decidable (t.Loses M key) :=
  Node.decidableLoses M t.depth t.root key

omit [Zero K] in
theorem within_all (key : K) : Chain.Within (⊥ : WithBot K) (⊤ : WithTop K) key :=
  ⟨bot_le, WithTop.coe_lt_top key⟩

theorem empty_wellFormed : (empty : BPlusTree K V).WellFormed N M :=
  LeafNode.WellFormed.mk (Nat.zero_le _) (fun h => Bool.noConfusion h) List.Pairwise.nil
    (fun _ h => (WithBot.bot_ne_coe h).elim) (fun _ h => (List.not_mem_nil h).elim)
    fun _ _ _ => Or.inl rfl

omit [LinearOrder K] in
@[simp] theorem contents_empty : (empty : BPlusTree K V).contents = [] := rfl

/-- **Insertion into the tree.** -/
theorem insert_spec (hN : 2 < N) (hM : 1 < M) {t : BPlusTree K V} (h : t.WellFormed N M) (key : K)
    (value : Option V) :
    ∃ t', t.insert N M key value = some t' ∧ t'.WellFormed N M ∧
      t'.contents = inserted (t.Loses M key) key value t.contents := by
  obtain ⟨r, hins, hok⟩ := Node.insert_spec hN hM t.depth h (within_all key) value
  rw [insert, hins, Option.map_some]
  rw [Inserted.Ok] at hok
  cases hs : r.split with
  | none =>
    rw [hs] at hok
    exact ⟨_, rfl, hok.1, hok.2⟩
  | some sr =>
    rw [hs] at hok
    obtain ⟨s, right⟩ := sr
    obtain ⟨hl, hr, hcont⟩ := hok
    refine ⟨_, rfl, ⟨show 1 ≤ N by omega, le_refl _, hl, hr⟩, ?_⟩
    refine Eq.trans ?_ hcont
    exact (Spine.flatten_cons _ _ _ _ _).trans (congrArg _ (Spine.flatten_nil _ _))

theorem findInto_spec {t : BPlusTree K V} (h : t.WellFormed N M) (key : K) (value : Option V) :
    t.findInto key value = Node.report t.contents key value :=
  Node.find_spec t.depth h (within_all key) value

theorem findInto_of_loses {t : BPlusTree K V} {key : K} (hl : t.Loses M key) (value : Option V) :
    t.findInto key value = (false, value) :=
  Node.find_of_loses t.depth hl value

/-- `find` looks the key up, and does not see tombstones. -/
theorem find_eq {t : BPlusTree K V} (h : t.WellFormed N M) (key : K) :
    t.find key = (t.contents.lookup key).join := by
  rw [find, findInto_spec h, Node.report]
  cases t.contents.lookup key with
  | none => rfl
  | some v => cases v <;> rfl

/-- **`del` of a stored key.** -/
theorem del_spec {t : BPlusTree K V} (h : t.WellFormed N M) {key : K}
    (hstored : (t.contents.lookup key).isSome) :
    ∃ t', t.del M key = some (true, t') ∧ t'.WellFormed N M ∧
      t'.contents = Assoc.upsert key none t.contents := by
  obtain ⟨node', hdel, hwf, hcont⟩ := Node.del_spec t.depth h (within_all key) hstored
  exact ⟨⟨t.depth, node'⟩, by rw [del, hdel, Option.map_some], hwf, hcont⟩

/-- **`findLastLessThan` reports the last live entry below the key**, and leaves the
output variables alone when there is none. -/
theorem findLastLessThan_spec {t : BPlusTree K V} (h : t.WellFormed N M) (key : K)
    (value : Option V) (outKey : K) :
    t.findLastLessThan key value outKey =
      some (match Assoc.lastBelow key (Assoc.live t.contents) with
        | none => (false, value, outKey)
        | some (k, v) => (true, some v, k)) := by
  induction hn : t.storedBelow key using Nat.strong_induction_on generalizing key with
  | _ n ih =>
    have hslot := Node.lastSlotBelow_spec t.depth h key
    have hs : Assoc.Sorted t.contents := Node.sorted t.depth h
    rw [findLastLessThan]
    split
    · next heq => exact absurd (heq.symm.trans hslot) (by simp)
    · next heq =>
      have hlast : Assoc.lastBelow key t.contents = none :=
        (Option.some.inj (heq.symm.trans hslot)).symm
      rw [Assoc.lastBelow_live_of_none hlast]
    · next k v heq =>
      have hlast : Assoc.lastBelow key t.contents = some (k, some v) :=
        (Option.some.inj (heq.symm.trans hslot)).symm
      rw [Assoc.lastBelow_live_of_live hlast]
    · next k heq =>
      have hlast : Assoc.lastBelow key t.contents = some (k, none) :=
        (Option.some.inj (heq.symm.trans hslot)).symm
      obtain ⟨hmem, hlt⟩ := Assoc.mem_of_lastBelow hlast
      rw [Assoc.lastBelow_live_of_tombstone hs hlast]
      exact ih _ (hn ▸ storedBelow_lt (e := (k, none)) hmem hlt) k rfl

end BPlusTree

end TpccBench
