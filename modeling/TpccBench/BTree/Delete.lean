import TpccBench.BTree.Run

/-!
# What a deletion looks at

`find` compares its key with a slot only if the slot is in use. `del` compares it with whatever is
at the place of the key: beyond the keys in use that is a slot with a zero or with a key that went
to the right, and in a full leaf it is none at all. Nor does it look whether the value is null. So a
deletion does what it should (`TpccBench.BPlusTree.DelExact`) exactly for the keys that come before
the end of their leaf and are not deleted already (`TpccBench.TreeOp.del_exact_iff`).
-/

namespace TpccBench

variable {K V : Type} [LinearOrder K]

/-- The place of a key in a leaf, which `del` inspects. -/
def LeafNode.place (leaf : LeafNode K V) (key : K) : ℕ := leafPositionFor key leaf.keys leaf.numKeys

namespace LeafNode

variable {leaf : LeafNode K V} {key : K}

/-- The place is in use if there is a key that is not below. -/
theorem place_lt_iff (hs : Assoc.Sorted leaf.entries) :
    leaf.place key < leaf.numKeys ↔ ∃ i < leaf.numKeys, key ≤ leaf.keys i := by
  have hpos := leaf.isPosition hs key
  constructor
  · exact fun hlt => ⟨_, hlt, hpos.above _ le_rfl hlt⟩
  · rintro ⟨i, hi, hle⟩
    refine lt_of_le_of_lt ?_ hi
    by_contra hc
    exact absurd (hpos.below i (not_le.mp hc)) (not_lt_of_ge hle)

/-- A key that is in use is at its place. -/
theorem eq_place (hs : Assoc.Sorted leaf.entries) {i : ℕ} (hi : i < leaf.numKeys) (hkey : leaf.keys i = key) :
    i = leaf.place key := by
  have hpos := leaf.isPosition hs key
  have hle : leaf.place key ≤ i := by
    by_contra hc
    exact absurd (hpos.below i (not_le.mp hc)) (by rw [hkey]; exact lt_irrefl _)
  rcases Nat.eq_or_lt_of_le hle with heq | hlt
  · exact heq.symm
  · have hbelow : leaf.keys (leaf.place key) < leaf.keys i := leaf.keys_lt hs hlt hi
    have habove := hpos.above _ le_rfl (lt_trans hlt hi)
    exact absurd (lt_of_le_of_lt habove hbelow) (by rw [hkey]; exact lt_irrefl _)

end LeafNode

namespace Node

variable {N M : ℕ}

/-- The leaf that the descent by a key ends at. -/
def leafFor : (d : ℕ) → Node K V d → K → LeafNode K V
  | 0, leaf, _ => leaf
  | d + 1, inner, key =>
    let inner : InnerNode K (Node K V d) := inner
    leafFor d (inner.child (Spine.position key inner.rest)) key

/-- `del` in a leaf. -/
theorem leaf_del (leaf : LeafNode K V) (key : K) :
    (del M 0 leaf key : Option (Bool × LeafNode K V)) =
      if leaf.place key < M then
        if leaf.keys (leaf.place key) = key then
          some (true, { leaf with values := setSlot leaf.values (leaf.place key) none })
        else some (false, leaf)
      else none := rfl

theorem leaf_del_reports (leaf : LeafNode K V) (key : K) :
    (del M 0 leaf key : Option (Bool × LeafNode K V)).map Prod.fst =
      if leaf.place key < M then some (decide (leaf.keys (leaf.place key) = key)) else none := by
  rw [leaf_del]
  by_cases hM : leaf.place key < M
  · rw [if_pos hM, if_pos hM]
    split
    · next h =>
      rw [decide_eq_true h]
      rfl
    · next h =>
      rw [decide_eq_false h]
      rfl
  · rw [if_neg hM, if_neg hM]
    rfl

/-- **What `del` reports**: whether its key is at its place, in use or not. -/
theorem del_reports (d : ℕ) (node : Node K V d) (key : K) :
    (del M d node key).map Prod.fst =
      if (leafFor d node key).place key < M then
        some (decide ((leafFor d node key).keys ((leafFor d node key).place key) = key)) else none := by
  induction d with
  | zero => exact leaf_del_reports node key
  | succ d ih =>
    rw [del, leafFor, Option.map_map]
    exact ih _

variable [Zero K]

/-- A key is looked up in its leaf. -/
theorem lookup_leafFor (d : ℕ) {root : Bool} {lo : WithBot K} {node : Node K V d} {hi : WithTop K}
    (h : node.WellFormed N M d root lo hi) {key : K} (hk : Chain.Within lo hi key) :
    (contents d node).lookup key = (leafFor d node key).entries.lookup key ∧
      ∃ root lo hi, LeafNode.WellFormed M root lo (leafFor d node key) hi := by
  induction d generalizing root lo hi with
  | zero => exact ⟨rfl, root, lo, hi, h⟩
  | succ d ih =>
    obtain ⟨a, b, pre, post, hr, hab, hpre, hpost⟩ := Chain.route (separates d) (bounded d) h.2.2 hk
    have hcont : contents (d + 1) node = pre ++ contents d (Spine.childAt node.first node.rest
        (Spine.position key node.rest)) ++ post := hr.holds
    obtain ⟨hlookup, hwf⟩ := ih hr.child hab
    refine ⟨?_, hwf⟩
    rw [hcont, Assoc.lookup_append_left fun e he => ne_of_gt (hpost e he),
      Assoc.lookup_append_right fun e he => ne_of_lt (hpre e he)]
    exact hlookup

/-- **`del` of a key that is not stored** leaves the keys in use what they were. -/
theorem del_spec_unstored (d : ℕ) {root : Bool} {lo : WithBot K} {node node' : Node K V d} {hi : WithTop K}
    (h : node.WellFormed N M d root lo hi) {key : K} (hk : Chain.Within lo hi key)
    (hnot : (contents d node).lookup key = none) {b : Bool} (hrun : del M d node key = some (b, node')) :
    node'.WellFormed N M d root lo hi ∧ contents d node' = contents d node := by
  induction d generalizing root lo hi with
  | zero =>
    have h : LeafNode.WellFormed M root lo node hi := h
    have hl := leaf_lookup h.sorted key
    rw [contents] at hnot
    rw [hnot] at hl
    rw [del] at hrun
    simp only at hl hrun
    generalize leafPositionFor key (LeafNode.keys node) (LeafNode.numKeys node) = i at hl hrun
    split at hrun
    · split at hrun
      · next hkey =>
        -- a slot that is not in use
        have hout : LeafNode.numKeys node ≤ i := by
          by_contra hc
          rw [if_pos ⟨not_le.mp hc, hkey⟩] at hl
          exact absurd hl (by simp)
        obtain ⟨-, rfl⟩ := Prod.mk.inj (Option.some.inj hrun)
        have hentries : ({ (node : LeafNode K V) with
            values := setSlot (LeafNode.values node) i none } : LeafNode K V).entries = LeafNode.entries node := by
          refine List.map_congr_left fun j hj => ?_
          have hne : j ≠ i := ne_of_lt (lt_of_lt_of_le (List.mem_range.mp hj) hout)
          exact congrArg (Prod.mk _) (setSlot_ne _ none hne)
        refine ⟨⟨h.size, h.filled, ?_, fun s hs => ?_, fun e he => ?_, h.unused⟩, hentries⟩
        · rw [hentries]
          exact h.sorted
        · rw [hentries]
          exact h.least s hs
        · rw [hentries] at he
          exact h.below e he
      · obtain ⟨-, rfl⟩ := Prod.mk.inj (Option.some.inj hrun)
        exact ⟨h, rfl⟩
    · exact absurd hrun (by simp)
  | succ d ih =>
    obtain ⟨a, b, pre, post, hr, hab, hpre, hpost⟩ := Chain.route (separates d) (bounded d) h.2.2 hk
    have hcont : contents (d + 1) node = pre ++ contents d (Spine.childAt node.first node.rest
        (Spine.position key node.rest)) ++ post := hr.holds
    rw [hcont, Assoc.lookup_append_left fun e he => ne_of_gt (hpost e he),
      Assoc.lookup_append_right fun e he => ne_of_lt (hpre e he)] at hnot
    rw [del] at hrun
    obtain ⟨⟨b', child⟩, hchild, heq⟩ := Option.map_eq_some_iff.mp hrun
    obtain ⟨rfl, rfl⟩ := Prod.mk.inj heq
    obtain ⟨hwf, hsame⟩ := ih hr.child hab hnot hchild
    refine ⟨⟨?_, ?_, hr.set child hwf⟩, ?_⟩
    · exact le_of_eq_of_le (Spine.length_setAt ..) h.1
    · exact le_of_le_of_eq h.2.1 (Spine.length_setAt ..).symm
    · refine (hr.holds_set child).trans ?_
      rw [hsame, hcont]

end Node

namespace BPlusTree

variable {N M : ℕ} {t t' : BPlusTree K V} {key : K}

/-- The leaf that `del` reaches. -/
def leafFor (t : BPlusTree K V) (key : K) : LeafNode K V := Node.leafFor t.depth t.root key

/-- **The deletion of a key does what it should**: it reports what `find` reports, looks at a slot in
use, and has `find` report the key no more, and every other key as before. -/
structure DelExact (M : ℕ) (t : BPlusTree K V) (key : K) : Prop where
  inUse : (t.leafFor key).place key < (t.leafFor key).numKeys
  run : ∃ t', t.del M key = some ((t.findInto key none).1, t') ∧ (t'.findInto key none).1 = false ∧
    ∀ k ≠ key, ∀ value, t'.findInto k value = t.findInto k value

/-- The key comes before the end of its leaf, and is not deleted already. -/
structure Deletable (t : BPlusTree K V) (key : K) : Prop where
  inside : ∃ i < (t.leafFor key).numKeys, key ≤ (t.leafFor key).keys i
  notDeleted : ∀ i < (t.leafFor key).numKeys, (t.leafFor key).keys i = key → (t.leafFor key).values i ≠ none

instance (t : BPlusTree K V) (key : K) : Decidable (t.Deletable key) :=
  decidable_of_iff ((∃ i < (t.leafFor key).numKeys, key ≤ (t.leafFor key).keys i) ∧
      ∀ i < (t.leafFor key).numKeys, (t.leafFor key).keys i = key → (t.leafFor key).values i ≠ none)
    ⟨fun h => ⟨h.1, h.2⟩, fun h => ⟨h.inside, h.notDeleted⟩⟩

variable [Zero K]

/-- The leaf of a key in a well-formed tree. -/
theorem leafFor_spec (h : t.WellFormed N M) (key : K) :
    t.contents.lookup key = (t.leafFor key).entries.lookup key ∧
      Assoc.Sorted (t.leafFor key).entries ∧ (t.leafFor key).numKeys ≤ M := by
  obtain ⟨hlookup, root, lo, hi, hwf⟩ := Node.lookup_leafFor t.depth h (within_all key)
  exact ⟨hlookup, hwf.sorted, hwf.size⟩

/-- Whatever is deleted, the tree stays well formed. -/
theorem del_wellFormed (h : t.WellFormed N M) {b : Bool} (hrun : t.del M key = some (b, t')) :
    t'.WellFormed N M := by
  cases hl : t.contents.lookup key with
  | none =>
    obtain ⟨⟨b', node'⟩, hnode, heq⟩ := Option.map_eq_some_iff.mp hrun
    obtain ⟨rfl, rfl⟩ := Prod.mk.inj heq
    exact (Node.del_spec_unstored t.depth h (within_all key) hl hnode).1
  | some v =>
    have hstored : (t.contents.lookup key).isSome := Option.isSome_of_eq_some hl
    obtain ⟨t'', hdel, hwf, -⟩ := del_spec h hstored
    obtain ⟨-, rfl⟩ := Prod.mk.inj (Option.some.inj (hdel.symm.trans hrun))
    exact hwf

/-- **A deletion does what it should** exactly if the key comes before the end of its leaf, and is not
deleted already. -/
theorem delExact_iff (h : t.WellFormed N M) : t.DelExact M key ↔ t.Deletable key := by
  obtain ⟨hlookup, hs, hsize⟩ := leafFor_spec h key
  have hl := Node.leaf_lookup hs key
  have hplace : leafPositionFor key (t.leafFor key).keys (t.leafFor key).numKeys = (t.leafFor key).place key := rfl
  rw [hplace] at hl
  constructor
  · rintro ⟨hin, t', hrun, -, -⟩
    refine ⟨(LeafNode.place_lt_iff hs).mp hin, fun i hi hkey hnull => ?_⟩
    obtain rfl := LeafNode.eq_place hs hi hkey
    -- the tombstone is reported as deleted, and not found
    have hstored : t.contents.lookup key = some none := by
      rw [hlookup, hl, if_pos ⟨hi, hkey⟩, hnull]
    obtain ⟨t'', hdel, -, -⟩ := del_spec h (Option.isSome_of_eq_some hstored)
    have htrue := (Prod.mk.inj (Option.some.inj (hdel.symm.trans hrun))).1
    rw [findInto_spec h, Node.report, hstored] at htrue
    exact absurd htrue (by simp)
  · rintro ⟨hinside, hlive⟩
    have hin := (LeafNode.place_lt_iff hs).mpr hinside
    refine ⟨hin, ?_⟩
    by_cases hkey : (t.leafFor key).keys ((t.leafFor key).place key) = key
    · -- a live key
      obtain ⟨v, hv⟩ := Option.ne_none_iff_exists'.mp (hlive _ hin hkey)
      have hstored : t.contents.lookup key = some (some v) := by
        rw [hlookup, hl, if_pos ⟨hin, hkey⟩, hv]
      obtain ⟨t', hdel, hwf, hcont⟩ := del_spec h (Option.isSome_of_eq_some hstored)
      refine ⟨t', ?_, ?_, fun k hk value => ?_⟩
      · rw [hdel, findInto_spec h, Node.report, hstored]
        rfl
      · rw [findInto_spec hwf, Node.report, hcont, Assoc.lookup_upsert, if_pos rfl]
        rfl
      · rw [findInto_spec hwf, findInto_spec h, Node.report, Node.report, hcont, Assoc.lookup_upsert, if_neg hk]
    · -- a key that is not stored
      have hnot : t.contents.lookup key = none := by
        rw [hlookup, hl, if_neg fun hc => hkey hc.2]
      have hreports := Node.del_reports (M := M) t.depth t.root key
      have hplace : (Node.leafFor t.depth t.root key).place key < M := lt_of_lt_of_le hin hsize
      have hkey' : ¬(Node.leafFor t.depth t.root key).keys ((Node.leafFor t.depth t.root key).place key) = key := hkey
      rw [if_pos hplace, decide_eq_false hkey'] at hreports
      obtain ⟨⟨b, node'⟩, hnode, hb⟩ := Option.map_eq_some_iff.mp hreports
      obtain rfl : b = false := hb
      obtain ⟨hwf, hcont⟩ := Node.del_spec_unstored t.depth h (within_all key) hnot hnode
      have hsame : ∀ k value, findInto ⟨t.depth, node'⟩ k value = t.findInto k value := fun k value => by
        rw [findInto_spec (t := ⟨t.depth, node'⟩) hwf, findInto_spec h]
        exact congrArg (fun l => Node.report l k value) hcont
      have hfalse : (t.findInto key none).1 = false := by rw [findInto_spec h, Node.report, hnot]
      refine ⟨⟨t.depth, node'⟩, ?_, by rw [hsame, hfalse], fun k _ value => hsame k value⟩
      rw [del, hnode, hfalse]
      rfl

end BPlusTree

/-! ### Any insertions and deletions -/

namespace TreeOp

variable [Zero K] {N M : ℕ} {ops done : List (TreeOp K V)} {t : BPlusTree K V}

/-- Whatever is inserted and deleted, the tree stays well formed. -/
theorem tree_wellFormed (hN : 2 < N) (hM : 1 < M) (ht : tree N M ops = some t) : t.WellFormed N M := by
  induction ops using List.reverseRecOn generalizing t with
  | nil =>
    obtain rfl := Option.some.inj ht
    exact BPlusTree.empty_wellFormed
  | append_singleton ops op ih =>
    rw [tree, Run.result_snoc] at ht
    obtain ⟨t₀, ht₀, hstep⟩ := Option.bind_eq_some_iff.mp ht
    have hwf := ih ht₀
    cases op with
    | insert key v =>
      obtain ⟨t', hins, hwf', -⟩ := BPlusTree.insert_spec hN hM hwf key (some v)
      obtain rfl := Option.some.inj (hins.symm.trans hstep)
      exact hwf'
    | del key =>
      obtain ⟨⟨b, t'⟩, hdel, rfl⟩ := Option.map_eq_some_iff.mp hstep
      exact BPlusTree.del_wellFormed hwf hdel

/-- A deletion is one that the tree does as it should. -/
def Fitting (N M : ℕ) (done : List (TreeOp K V)) : TreeOp K V → Prop
  | insert _ _ => True
  | del key => ∀ t ∈ tree N M done, t.Deletable key

instance (done : List (TreeOp K V)) : (op : TreeOp K V) → Decidable (Fitting N M done op)
  | insert _ _ => isTrue trivial
  | del key => inferInstanceAs (Decidable (∀ t ∈ tree N M done, t.Deletable key))

/-- **Deletions are exact if and only if** the key comes before the end of its leaf, and is not
deleted already. A run of such deletions, and any insertions, does not fail. -/
theorem del_exact_iff (hN : 2 < N) (hM : 1 < M) :
    (∀ {ops : List (TreeOp K V)}, Run.Each (Fitting N M) ops →
      (∃ t, tree N M ops = some t) ∧ ∀ done key, done ++ [del key] <+: ops →
        ∃ t, tree N M done = some t ∧ t.DelExact M key) ∧
    ∀ {ops : List (TreeOp K V)} {t : BPlusTree K V}, tree N M ops = some t →
      ∀ key, t.DelExact M key ↔ t.Deletable key := by
  have hexact : ∀ {ops : List (TreeOp K V)} {t : BPlusTree K V}, tree N M ops = some t →
      ∀ key, t.DelExact M key ↔ t.Deletable key :=
    fun ht key => BPlusTree.delExact_iff (tree_wellFormed hN hM ht)
  refine ⟨fun {ops} hfit => ?_, hexact⟩
  have hstep : ∀ (done : List (TreeOp K V)) op t, tree N M done = some t → True → Fitting N M done op →
      ∃ t', step N M t op = some t' ∧ True := by
    intro done op t ht _ hop
    cases op with
    | insert key v =>
      obtain ⟨t', hins, -⟩ := BPlusTree.insert_spec hN hM (tree_wellFormed hN hM ht) key (some v)
      exact ⟨t', hins, trivial⟩
    | del key =>
      obtain ⟨-, t', hdel, -⟩ := (hexact ht key).mpr (hop t ht)
      exact ⟨t', by rw [step, hdel, Option.map_some], trivial⟩
  have hends : ∀ {ops : List (TreeOp K V)}, Run.Each (Fitting N M) ops → ∃ t, tree N M ops = some t :=
    fun hfit => (Run.induction (I := fun _ _ => True) trivial hstep hfit).imp fun _ h => h.1
  refine ⟨hends hfit, fun done key hdone => ?_⟩
  obtain ⟨t, ht⟩ := hends (hfit.of_initial ((List.prefix_append _ _).trans hdone))
  exact ⟨t, ht, (hexact ht key).mpr (hfit done (del key) hdone t ht)⟩

/-- A key that is stored, and one that is not. -/
theorem del_exact_small :
    (∃ t, tree 8 8 [insert (3 : ℤ) 1, insert 5 2, del 4, del 3] = some t) ∧
      ((BPlusTree.empty : BPlusTree ℤ ℕ).DelExact 8 0 ↔ (BPlusTree.empty : BPlusTree ℤ ℕ).Deletable 0) := by
  have hexact := del_exact_iff (K := ℤ) (V := ℕ) (N := 8) (M := 8) (by decide) (by decide)
  have hfit : Run.Each (Fitting 8 8) [insert (3 : ℤ) 1, insert 5 2, del 4, del 3] := by decide
  have hempty : tree 8 8 ([] : List (TreeOp ℤ ℕ)) = some BPlusTree.empty := rfl
  exact ⟨(hexact.1 hfit).1, hexact.2 hempty 0⟩

/-- The empty tree reports key 0 as deleted: the unused slot it is compared with is zero. -/
theorem del_not_exact : ¬∀ (ops : List (TreeOp ℤ ℕ)) (t : BPlusTree ℤ ℕ), tree 8 8 ops = some t →
    ∀ key, t.DelExact 8 key := by
  intro h
  obtain ⟨t', hdel, -⟩ := (h [] BPlusTree.empty rfl 0).run
  have htrue : ((BPlusTree.empty : BPlusTree ℤ ℕ).del 8 0).map Prod.fst = some true := by decide
  rw [hdel, Option.map_some] at htrue
  have hfound : ((BPlusTree.empty : BPlusTree ℤ ℕ).findInto 0 none).1 = true := Option.some.inj htrue
  exact absurd hfound (by decide)

end TreeOp

end TpccBench
