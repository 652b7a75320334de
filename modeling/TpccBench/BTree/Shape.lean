import TpccBench.BTree.Leaf

/-!
# The shape of the tree, and what an insertion does to it

A subtree is *well formed between two bounds* when its keys increase and stay below
the upper bound, its least **stored** key is the lower bound (live or tombstoned: a
separator is never out of date, since no key is ever taken out), its nodes are
filled as a B+ tree's are, and the unused slots of its leaves hold nothing but zeros
and keys that are not below the upper bound.

The one theorem every result about the tree rests on is
`TpccBench.Node.insert_spec`: no assertion of `insert` fails on a well-formed tree, the
tree stays well formed, and its entries are those of before with the key written –
except for the one key an unused slot can be mistaken for
(`TpccBench.Node.Loses`).
-/

namespace TpccBench

variable {K V C E : Type} [LinearOrder K] [Zero K]

/-- **A leaf between two bounds.** -/
structure LeafNode.WellFormed (M : ℕ) (root : Bool) (lo : WithBot K) (leaf : LeafNode K V)
    (hi : WithTop K) : Prop where
  /-- A leaf has `M` slots. -/
  size : leaf.numKeys ≤ M
  /-- All leaves but a root are at least half full. -/
  filled : root = false → M / 2 ≤ leaf.numKeys
  /-- The keys increase. -/
  sorted : Assoc.Sorted leaf.entries
  /-- A lower bound is the least key. -/
  least : ∀ s : K, lo = s → leaf.entries.head?.map Prod.fst = some s
  /-- The upper bound is above every key. -/
  below : ∀ e ∈ leaf.entries, (e.1 : WithTop K) < hi
  /-- An unused slot holds a zero or a key that went to the right. -/
  unused : ∀ j, leaf.numKeys ≤ j → j < M → leaf.keys j = 0 ∨ hi ≤ (leaf.keys j : WithTop K)

/-- **A node between two bounds**, at a distance `d` from the leaves. -/
def Node.WellFormed (N M : ℕ) :
    (d : ℕ) → Bool → WithBot K → Node K V d → WithTop K → Prop
  | 0, root, lo, leaf, hi => LeafNode.WellFormed M root lo leaf hi
  | d + 1, root, lo, inner, hi =>
    let inner : InnerNode K (Node K V d) := inner
    inner.rest.length ≤ N ∧ (if root then 1 else (N + 1) / 2 - 1) ≤ inner.rest.length ∧
      Chain (Node.WellFormed N M d false) lo inner.first inner.rest hi

/-- What an insertion leaves, one node or two, is well formed and holds `target`. -/
def Inserted.Ok (P : Bool → WithBot K → C → WithTop K → Prop) (f : C → List E) (root : Bool)
    (lo : WithBot K) (hi : WithTop K) (target : List E) (r : Inserted K C) : Prop :=
  match r.split with
  | none => P root lo r.node hi ∧ f r.node = target
  | some (s, right) =>
    P false lo r.node (s : WithTop K) ∧ P false (s : WithBot K) right hi ∧
      f r.node ++ f right = target

/-! ### A key taken for an unused slot -/

/-- The leaf **loses** the key: the key belongs after all live slots, and the slot it is
compared with there – an unused one, or in a full leaf the slot of the new sibling
it will be compared with after the split – already holds it. -/
def LeafNode.Loses (M : ℕ) (leaf : LeafNode K V) (key : K) : Prop :=
  leafPositionFor key leaf.keys leaf.numKeys = leaf.numKeys ∧
    (if leaf.numKeys = M then 0 else leaf.keys leaf.numKeys) = key

instance LeafNode.decidableLoses (M : ℕ) (leaf : LeafNode K V) (key : K) :
    Decidable (leaf.Loses M key) :=
  inferInstanceAs (Decidable (_ ∧ _))

/-- The leaf that the descent by the key reaches loses it. -/
def Node.Loses (M : ℕ) : (d : ℕ) → Node K V d → K → Prop
  | 0, leaf, key => LeafNode.Loses M leaf key
  | d + 1, inner, key =>
    let inner : InnerNode K (Node K V d) := inner
    Node.Loses M d (inner.child (Spine.position key inner.rest)) key

instance Node.decidableLoses (M : ℕ) :
    (d : ℕ) → (node : Node K V d) → (key : K) → Decidable (node.Loses M d key)
  | 0, leaf, key => LeafNode.decidableLoses M leaf key
  | d + 1, inner, key =>
    let inner : InnerNode K (Node K V d) := inner
    decidableLoses M d (inner.child (Spine.position key inner.rest)) key

/-- The entries after an insertion of the key. -/
def inserted (lost : Prop) [Decidable lost] (key : K) (value : Option V)
    (l : List (K × Option V)) : List (K × Option V) :=
  if lost then l else Assoc.upsert key value l

/-! ### Leaves -/

namespace LeafNode

omit [LinearOrder K] [Zero K] in
theorem head_entries (leaf : LeafNode K V) (h : 0 < leaf.numKeys) :
    leaf.entries.head?.map Prod.fst = some (leaf.keys 0) := by
  obtain ⟨n, hn⟩ : ∃ n, leaf.numKeys = n + 1 := ⟨_, (Nat.sub_add_cancel h).symm⟩
  simp [entries, hn, List.range_succ_eq_map]

omit [Zero K] in
/-- A live slot is below a later one. -/
theorem keys_lt {leaf : LeafNode K V} (hs : Assoc.Sorted leaf.entries) {i j : ℕ} (hij : i < j)
    (hj : j < leaf.numKeys) : leaf.keys i < leaf.keys j := by
  have h := List.pairwise_iff_getElem.mp hs i j (by rw [length_entries]; omega) (by simpa using hj)
    hij
  rwa [entries_getElem, entries_getElem] at h

namespace WellFormed

variable {M : ℕ} {root : Bool} {lo : WithBot K} {hi : WithTop K} {leaf : LeafNode K V}

theorem lo_le (h : leaf.WellFormed M root lo hi) : ∀ e ∈ leaf.entries, lo ≤ (e.1 : WithBot K) := by
  intro e he
  cases lo with
  | bot => exact bot_le
  | coe s => exact WithBot.coe_le_coe.mpr (Assoc.head_le_of_sorted h.sorted (h.least s rfl) e he)

/-- A leaf only loses a key that is zero. -/
theorem eq_zero_of_loses (h : leaf.WellFormed M root lo hi) {key : K}
    (hk : (key : WithTop K) < hi) (hl : leaf.Loses M key) : key = 0 := by
  obtain ⟨-, hslot⟩ := hl
  split at hslot
  · exact hslot.symm
  · next hn =>
    rcases h.unused leaf.numKeys (le_refl _) (lt_of_le_of_ne h.size hn) with h0 | hle
    · exact hslot.symm.trans h0
    · exact absurd (lt_of_lt_of_le hk hle) (by rw [hslot]; exact lt_irrefl _)

end WellFormed

variable {M : ℕ} {root : Bool} {lo : WithBot K} {hi : WithTop K} {leaf : LeafNode K V}

/-- The insertion into a leaf with room. -/
theorem leafInsert_spec_room (h : leaf.WellFormed M root lo hi) (hroom : leaf.numKeys < M)
    {key : K} (hlo : lo ≤ (key : WithBot K)) (hhi : (key : WithTop K) < hi) (value : Option V) :
    ∃ r, leafInsert M leaf key value = some r ∧
      r.Ok (LeafNode.WellFormed M) entries root lo hi
        (inserted (leaf.Loses M key) key value leaf.entries) := by
  have hne : leaf.numKeys ≠ M := ne_of_lt hroom
  obtain ⟨leaf', hins, hdrop, hkeep, hn₁, hn₂, hspare⟩ :=
    leafInsertNonfull_spec h.sorted (leaf.isPosition h.sorted key) hroom value
  have hloses : leaf.Drops key (leafPositionFor key leaf.keys leaf.numKeys) ↔
      leaf.Loses M key := by
    rw [Drops, Loses, if_neg hne]
    exact and_congr_right fun hp => by rw [hp]
  have hentries : leaf'.entries = inserted (leaf.Loses M key) key value leaf.entries := by
    rw [inserted]
    split
    · next hl => exact hdrop (hloses.mpr hl)
    · next hl => exact hkeep fun hd => hl (hloses.mp hd)
  have hwf : leaf'.WellFormed M root lo hi := by
    refine ⟨by omega, fun hr => le_trans (h.filled hr) hn₁, ?_, fun s hs => ?_, fun e he => ?_,
      fun j hj hjM => ?_⟩
    · rw [hentries, inserted]
      split
      · exact h.sorted
      · exact Assoc.sorted_upsert h.sorted
    · rw [hentries, inserted]
      split
      · exact h.least s hs
      · exact Assoc.head_upsert (WithBot.coe_le_coe.mp (hs ▸ hlo)) (h.least s hs)
    · rw [hentries, inserted] at he
      split at he
      · exact h.below e he
      · rcases Assoc.mem_upsert he with rfl | he
        · exact hhi
        · exact h.below e he
    · rw [hspare j hj]
      exact h.unused j (by omega) hjM
  refine ⟨⟨leaf', none⟩, ?_, hwf, hentries⟩
  rw [leafInsert, if_pos h.size]
  simp only [if_neg hne, hins, Option.map_some]

/-- The insertion into a full leaf. -/
theorem leafInsert_spec_full (hM : 1 < M) (h : leaf.WellFormed M root lo hi)
    (hfull : leaf.numKeys = M) {key : K} (hlo : lo ≤ (key : WithBot K))
    (hhi : (key : WithTop K) < hi) (value : Option V) :
    ∃ r, leafInsert M leaf key value = some r ∧
      r.Ok (LeafNode.WellFormed M) entries root lo hi
        (inserted (leaf.Loses M key) key value leaf.entries) := by
  obtain ⟨t, ht⟩ : ∃ t, t = (M + 1) / 2 := ⟨_, rfl⟩
  have ht₁ : 0 < t := by omega
  have ht₂ : t < M := by omega
  have hpos := leaf.isPosition h.sorted key
  generalize hi' : leafPositionFor key leaf.keys leaf.numKeys = i at hpos
  have hsplit : leaf.entries.take t ++ leaf.entries.drop t = leaf.entries := List.take_append_drop _ _
  have hsorted := h.sorted
  rw [← hsplit, Assoc.Sorted, List.pairwise_append] at hsorted
  obtain ⟨hsl, hsr, hlr⟩ := hsorted
  have hel : ({ leaf with numKeys := t } : LeafNode K V).entries = leaf.entries.take t :=
    leaf.entries_truncate (by omega)
  have her : (leaf.sibling t).entries = leaf.entries.drop t := leaf.entries_sibling t
  have hnr : (leaf.sibling t).numKeys = M - t := by simp [sibling, hfull]
  have hkr : (leaf.sibling t).keys 0 = leaf.keys t := by
    have h0 : 0 < leaf.numKeys - t := by omega
    simp [sibling, h0]
  have hzero : ∀ j, M - t ≤ j → (leaf.sibling t).keys j = 0 := fun j hj => by
    have hj' : ¬j < leaf.numKeys - t := by omega
    simp [sibling, hj']
  have hheadl : ∀ s : K, lo = s → (leaf.entries.take t).head?.map Prod.fst = some s := fun s hs => by
    rw [List.head?_take, if_neg (by omega)]
    exact h.least s hs
  have hmemr : (leaf.keys t, leaf.values t) ∈ leaf.entries.drop t := by
    rw [← her, mem_entries]
    exact ⟨0, by omega, by simp [sibling]; omega⟩
  have hstale : ∀ j, t ≤ j → j < M → leaf.keys t ≤ leaf.keys j := fun j hj hjM => by
    rcases Nat.eq_or_lt_of_le hj with rfl | hj
    · exact le_refl _
    · exact le_of_lt (keys_lt h.sorted hj (by omega))
  by_cases hit : i < t
  · -- the key goes to the left half, where it is not at the end
    have hposl : ({ leaf with numKeys := t } : LeafNode K V).IsPosition key i :=
      ⟨le_of_lt hit, hpos.below, fun j hj (hjt : j < t) => hpos.above j hj (by omega)⟩
    obtain ⟨left, hins, -, hkeep, hn₁, hn₂, hspare⟩ :=
      leafInsertNonfull_spec (hel.symm ▸ hsl) hposl ht₂ value
    have hentries := hkeep fun hd => absurd hd.1 (ne_of_lt hit)
    rw [hel] at hentries
    have hkt : key < leaf.keys t :=
      lt_of_le_of_lt (hpos.above i (le_refl _) (by omega)) (keys_lt h.sorted hit (by omega))
    have hn₁ : t ≤ left.numKeys := hn₁
    have hn₂ : left.numKeys ≤ t + 1 := hn₂
    have hwl : left.WellFormed M false lo (leaf.keys t) := by
      refine ⟨by omega, fun _ => by omega, ?_, fun s hs => ?_, fun e he => ?_, fun j hj hjM => ?_⟩
      · rw [hentries]
        exact Assoc.sorted_upsert hsl
      · rw [hentries]
        exact Assoc.head_upsert (WithBot.coe_le_coe.mp (hs ▸ hlo)) (hheadl s hs)
      · rw [hentries] at he
        rcases Assoc.mem_upsert he with rfl | he
        · exact WithTop.coe_lt_coe.mpr hkt
        · exact WithTop.coe_lt_coe.mpr (hlr e he _ hmemr)
      · rw [hspare j hj]
        exact Or.inr (WithTop.coe_le_coe.mpr (hstale j (by omega) hjM))
    have hwr : (leaf.sibling t).WellFormed M false (leaf.keys t) hi := by
      refine ⟨by omega, fun _ => by omega, her.symm ▸ hsr, fun s hs => ?_, fun e he => ?_,
        fun j hj _ => Or.inl (hzero j (by omega))⟩
      · rw [head_entries _ (by omega), hkr]
        exact congrArg some (WithBot.coe_inj.mp hs)
      · rw [her] at he
        exact h.below e (List.mem_of_mem_drop he)
    have hnot : ¬leaf.Loses M key := fun hl => by
      have := hl.1
      omega
    have hholds : left.entries ++ (leaf.sibling t).entries =
        inserted (leaf.Loses M key) key value leaf.entries := by
      rw [inserted, if_neg hnot, hentries, her]
      conv_rhs => rw [← hsplit]
      refine (Assoc.upsert_append_left fun e he => lt_of_lt_of_le hkt ?_).symm
      refine Assoc.head_le_of_sorted hsr ?_ e he
      rw [← her, head_entries _ (by omega), hkr]
    refine ⟨⟨left, some ((leaf.sibling t).keys 0, leaf.sibling t)⟩, ?_, ?_⟩
    · rw [leafInsert, if_pos h.size]
      simp only [hi', if_pos hfull, ← ht, if_pos hit, hins, Option.map_some]
    · exact hkr.symm ▸ ⟨hwl, hwr, hholds⟩
  · -- the key goes to the right half
    have hposr : (leaf.sibling t).IsPosition key (i - t) := by
      have hle := hpos.le
      refine ⟨by omega, fun j hj => ?_, fun j hj hjn => ?_⟩
      · have hj' : j < leaf.numKeys - t := by omega
        simp only [sibling, if_pos hj']
        exact hpos.below (t + j) (by omega)
      · have hj' : j < leaf.numKeys - t := by omega
        simp only [sibling, if_pos hj']
        exact hpos.above (t + j) (by omega) (by omega)
    obtain ⟨right, hins, hdrop, hkeep, hn₁, hn₂, hspare⟩ :=
      leafInsertNonfull_spec (M := M) (her.symm ▸ hsr) hposr (by omega) value
    have hloses : (leaf.sibling t).Drops key (i - t) ↔ leaf.Loses M key := by
      rw [Drops, Loses, if_pos hfull, hi', hnr, hfull]
      have hle := hpos.le
      constructor
      · rintro ⟨h₁, h₂⟩
        exact ⟨by omega, by rw [← h₂, hzero _ (by omega)]⟩
      · rintro ⟨h₁, h₂⟩
        exact ⟨by omega, by rw [hzero _ (by omega), h₂]⟩
    have hentries : right.entries =
        inserted (leaf.Loses M key) key value (leaf.entries.drop t) := by
      rw [inserted]
      split
      · next hl => rw [hdrop (hloses.mpr hl), her]
      · next hl => rw [hkeep fun hd => hl (hloses.mp hd), her]
    have hbelow : ∀ e ∈ leaf.entries.take t, e.1 < key := by
      intro e he
      rw [take_entries] at he
      obtain ⟨j, hj, rfl⟩ := List.mem_map.mp he
      exact hpos.below j (by have := List.mem_range.mp hj; omega)
    have hsr' : Assoc.Sorted right.entries := by
      rw [hentries, inserted]
      split
      · exact hsr
      · exact Assoc.sorted_upsert hsr
    have hmem : ∀ e ∈ right.entries, e.1 = key ∨ e ∈ leaf.entries.drop t := by
      intro e he
      rw [hentries, inserted] at he
      split at he
      · exact Or.inr he
      · exact (Assoc.mem_upsert he).imp_left fun he => by rw [he]
    have hhead := head_entries right (by omega)
    have hsep : right.keys 0 ≤ leaf.keys t := by
      have hex : ∃ e ∈ right.entries, e.1 = leaf.keys t := by
        rw [hentries, inserted]
        split
        · exact ⟨_, hmemr, rfl⟩
        · exact Assoc.exists_mem_upsert hmemr
      obtain ⟨e, he, hk⟩ := hex
      exact hk ▸ Assoc.head_le_of_sorted hsr' hhead e he
    have hlt : ∀ e ∈ leaf.entries.take t, e.1 < right.keys 0 := by
      intro e he
      obtain ⟨x, hx, hk⟩ : ∃ x ∈ right.entries, x.1 = right.keys 0 :=
        ⟨_, mem_entries.mpr ⟨0, by omega, rfl⟩, rfl⟩
      rw [← hk]
      rcases hmem x hx with hx | hx
      · rw [hx]
        exact hbelow e he
      · exact hlr e he x hx
    have hwl : ({ leaf with numKeys := t } : LeafNode K V).WellFormed M false lo (right.keys 0) := by
      refine ⟨le_of_lt ht₂, fun _ => (show M / 2 ≤ t by omega), hel.symm ▸ hsl, fun s hs => ?_,
        fun e he => ?_, fun j hj hjM => ?_⟩
      · rw [hel]
        exact hheadl s hs
      · rw [hel] at he
        exact WithTop.coe_lt_coe.mpr (hlt e he)
      · exact Or.inr (WithTop.coe_le_coe.mpr (le_trans hsep (hstale j hj hjM)))
    have hwr : right.WellFormed M false (right.keys 0) hi := by
      refine ⟨by omega, fun _ => by omega, hsr', fun s hs => ?_, fun e he => ?_, fun j hj _ => ?_⟩
      · rw [hhead]
        exact congrArg some (WithBot.coe_inj.mp hs)
      · rcases hmem e he with he | he
        · rw [he]
          exact hhi
        · exact h.below e (List.mem_of_mem_drop he)
      · rw [hspare j hj]
        exact Or.inl (hzero j (by omega))
    have hholds : ({ leaf with numKeys := t } : LeafNode K V).entries ++ right.entries =
        inserted (leaf.Loses M key) key value leaf.entries := by
      rw [hel, hentries, inserted, inserted]
      split
      · exact hsplit
      · conv_rhs => rw [← hsplit]
        exact (Assoc.upsert_append_right hbelow).symm
    refine ⟨⟨{ leaf with numKeys := t }, some (right.keys 0, right)⟩, ?_, hwl, hwr, hholds⟩
    rw [leafInsert, if_pos h.size]
    simp only [hi', if_pos hfull, ← ht, if_neg hit, hins, Option.map_some]

/-- **Insertion into a leaf.** -/
theorem leafInsert_spec (hM : 1 < M) (h : leaf.WellFormed M root lo hi) {key : K}
    (hk : Chain.Within lo hi key) (value : Option V) :
    ∃ r, leafInsert M leaf key value = some r ∧
      r.Ok (LeafNode.WellFormed M) entries root lo hi
        (inserted (leaf.Loses M key) key value leaf.entries) := by
  rcases Nat.eq_or_lt_of_le h.size with hfull | hroom
  · exact leafInsert_spec_full hM h hfull hk.1 hk.2 value
  · exact leafInsert_spec_room h hroom hk.1 hk.2 value

end LeafNode

/-! ### Inner nodes -/

section Inner

variable {P : Bool → WithBot K → C → WithTop K → Prop} {f : C → List (K × Option V)}
  {lo : WithBot K} {hi : WithTop K} {key : K} {value : Option V} {L : C → Prop} [DecidablePred L]
  {insertChild : C → Option (Inserted K C)}

omit [Zero K] in
/-- What an insertion does in the middle of a list it does to the list. -/
theorem inserted_middle (value : Option V) (lost : Prop) [Decidable lost]
    (l : List (K × Option V)) {pre post : List (K × Option V)}
    (hpre : ∀ e ∈ pre, e.1 < key) (hpost : ∀ e ∈ post, key < e.1) :
    pre ++ inserted lost key value l ++ post = inserted lost key value (pre ++ l ++ post) := by
  rw [inserted, inserted]
  split
  · rfl
  · rw [Assoc.upsert_append_left hpost, Assoc.upsert_append_right hpre]

omit [Zero K] in
/-- Insertion into an inner node with room, given what it does to a child. -/
theorem innerInsertNonfull_spec {N : ℕ} (hP : Chain.Separates (P false))
    (hb : Chain.Bounded (P false) Prod.fst f)
    (hchild : ∀ a c b, P false a c b → Chain.Within a b key →
      ∃ r, insertChild c = some r ∧ r.Ok P f false a b (inserted (L c) key value (f c)))
    (node : InnerNode K C) (h : Chain (P false) lo node.first node.rest hi)
    (hk : Chain.Within lo hi key) (hroom : node.rest.length < N) :
    ∃ node', innerInsertNonfull N insertChild node key = some node' ∧
      Chain (P false) lo node'.first node'.rest hi ∧
      Spine.flatten f node'.first node'.rest =
        inserted (L (node.child (Spine.position key node.rest))) key value
          (Spine.flatten f node.first node.rest) ∧
      node.rest.length ≤ node'.rest.length ∧ node'.rest.length ≤ node.rest.length + 1 := by
  obtain ⟨a, b, pre, post, hr, hab, hpre, hpost⟩ := Chain.route hP hb h hk
  obtain ⟨r, hins, hok⟩ := hchild _ _ _ hr.child hab
  have hmiddle := inserted_middle value (L (node.child (Spine.position key node.rest)))
    (f (node.child (Spine.position key node.rest))) hpre hpost
  have hdef : innerInsertNonfull N insertChild node key = some (match r.split with
      | none => node.setChild (Spine.position key node.rest) r.node
      | some (s, right) => node.splitChild (Spine.position key node.rest) r.node s right) := by
    have hins : insertChild (node.child (Spine.position key node.rest)) = some r := hins
    rw [innerInsertNonfull, if_pos hroom]
    exact congrArg (Option.map _) hins
  refine ⟨_, hdef, ?_⟩
  rw [Inserted.Ok] at hok
  cases hs : r.split with
  | none =>
    rw [hs] at hok
    obtain ⟨hwf, hcont⟩ := hok
    refine ⟨hr.set r.node hwf, ?_, by simp [Spine.setChild], by simp [Spine.setChild]⟩
    refine (hr.holds_set r.node).trans ?_
    rw [hcont, hr.holds]
    exact hmiddle
  | some sr =>
    rw [hs] at hok
    obtain ⟨s, right⟩ := sr
    obtain ⟨hl, hr', hcont⟩ := hok
    have hlen := Spine.length_splitAt r.node s right node.first node.rest
      (Spine.position key node.rest) (Spine.position_le key node.rest)
    refine ⟨hr.split r.node s right hl hr', ?_, ?_, ?_⟩
    · refine (hr.holds_split r.node s right).trans ?_
      rw [hcont, hr.holds]
      exact hmiddle
    · exact le_trans (Nat.le_succ _) (le_of_eq hlen.symm)
    · exact le_of_eq hlen

omit [Zero K] in
/-- **Insertion into an inner node**, given what it does to a child. -/
theorem innerInsert_spec {N : ℕ} (hN : 2 < N) {root : Bool} (hP : Chain.Separates (P false))
    (hb : Chain.Bounded (P false) Prod.fst f)
    (hchild : ∀ a c b, P false a c b → Chain.Within a b key →
      ∃ r, insertChild c = some r ∧ r.Ok P f false a b (inserted (L c) key value (f c)))
    {node : InnerNode K C} (hsize : node.rest.length ≤ N)
    (hfilled : (if root then 1 else (N + 1) / 2 - 1) ≤ node.rest.length)
    (h : Chain (P false) lo node.first node.rest hi) (hk : Chain.Within lo hi key) :
    ∃ r, innerInsert N insertChild node key = some r ∧
      r.Ok (fun root lo (node : InnerNode K C) hi => node.rest.length ≤ N ∧
          (if root then 1 else (N + 1) / 2 - 1) ≤ node.rest.length ∧
          Chain (P false) lo node.first node.rest hi)
        (fun node => Spine.flatten f node.first node.rest) root lo hi
        (inserted (L (node.child (Spine.position key node.rest))) key value
          (Spine.flatten f node.first node.rest)) := by
  by_cases hfull : node.rest.length = N
  · -- the early split, at the separator with index `treshold - 1`
    obtain ⟨t, ht⟩ : ∃ t, t + 1 = (N + 1) / 2 := ⟨(N + 1) / 2 - 1, by omega⟩
    have htN : t < node.rest.length := by omega
    obtain ⟨s, c, hsc⟩ : ∃ s c, node.rest[t]? = some (s, c) :=
      ⟨_, _, (List.getElem?_eq_getElem htN).trans rfl⟩
    have hcut : node.rest = node.rest.take t ++ (s, c) :: node.rest.drop (t + 1) := by
      have hget : node.rest[t] = (s, c) :=
        Option.some.inj ((List.getElem?_eq_getElem htN).symm.trans hsc)
      rw [← hget, ← List.drop_eq_getElem_cons, List.take_append_drop]
    generalize hl : node.rest.take t = l at hcut
    generalize hr : node.rest.drop (t + 1) = r at hcut
    have hll : l.length = t := by rw [← hl, List.length_take]; omega
    have hlr : r.length = N - (t + 1) := by rw [← hr, List.length_drop, hfull]
    have hdef : innerInsert N insertChild node key =
        if key < s then (innerInsertNonfull N insertChild ⟨node.first, l⟩ key).map
            fun left => ⟨left, some (s, ⟨c, r⟩)⟩
        else (innerInsertNonfull N insertChild ⟨c, r⟩ key).map
            fun sibling => ⟨⟨node.first, l⟩, some (s, sibling)⟩ := by
      rw [innerInsert, if_pos hfull]
      simp only [← ht, Nat.add_sub_cancel, hsc, hl, hr]
    rw [hcut, Chain.append] at h
    obtain ⟨hleft, hright⟩ := h
    have hflat : Spine.flatten f node.first node.rest =
        Spine.flatten f node.first l ++ Spine.flatten f c r := by
      rw [hcut, Spine.flatten_append]
    rw [hdef]
    by_cases hks : key < s
    · have hwk : Chain.Within lo (s : WithTop K) key := ⟨hk.1, WithTop.coe_lt_coe.mpr hks⟩
      have hroom : l.length < N := by omega
      obtain ⟨left, hins, hchain, hcont, hn₁, hn₂⟩ :=
        innerInsertNonfull_spec (L := L) hP hb hchild ⟨node.first, l⟩ hleft hwk hroom
      have hn₁ : l.length ≤ left.rest.length := hn₁
      have hn₂ : left.rest.length ≤ l.length + 1 := hn₂
      have hsame : node.child (Spine.position key node.rest) =
          Spine.childAt node.first l (Spine.position key l) := by
        rw [Spine.child, hcut, Spine.child_cut_left hks]
      refine ⟨⟨left, some (s, ⟨c, r⟩)⟩, by rw [if_pos hks, hins, Option.map_some], ?_, ?_, ?_⟩
      · exact ⟨show left.rest.length ≤ N by omega, show (N + 1) / 2 - 1 ≤ left.rest.length by omega,
          hchain⟩
      · exact ⟨show r.length ≤ N by omega, show (N + 1) / 2 - 1 ≤ r.length by omega, hright⟩
      · rw [hflat, hsame]
        have happ : ∀ e ∈ Spine.flatten f c r, key < e.1 := fun e he =>
          lt_of_lt_of_le hks (WithBot.coe_le_coe.mp (Chain.within hP hb hright e he).1)
        have hmid := inserted_middle value
          (L (Spine.childAt node.first l (Spine.position key l)))
          (Spine.flatten f node.first l) (List.forall_mem_nil _) happ
        rw [List.nil_append, List.nil_append] at hmid
        rw [← hmid]
        exact congrArg (· ++ Spine.flatten f c r) hcont
    · have hsk : s ≤ key := not_lt.mp hks
      have hwk : Chain.Within (s : WithBot K) hi key := ⟨WithBot.coe_le_coe.mpr hsk, hk.2⟩
      have hroom : r.length < N := by omega
      obtain ⟨sibling, hins, hchain, hcont, hn₁, hn₂⟩ :=
        innerInsertNonfull_spec (L := L) hP hb hchild ⟨c, r⟩ hright hwk hroom
      have hn₁ : r.length ≤ sibling.rest.length := hn₁
      have hn₂ : sibling.rest.length ≤ r.length + 1 := hn₂
      have hsame : node.child (Spine.position key node.rest) =
          Spine.childAt c r (Spine.position key r) := by
        rw [Spine.child, hcut, Spine.child_cut_right hsk]
        exact fun e he => le_of_lt (lt_of_lt_of_le
          (WithTop.coe_lt_coe.mp (Chain.keys_lt hP hleft e he)) hsk)
      refine ⟨⟨⟨node.first, l⟩, some (s, sibling)⟩, by rw [if_neg hks, hins, Option.map_some],
        ?_, ?_, ?_⟩
      · exact ⟨show l.length ≤ N by omega, show (N + 1) / 2 - 1 ≤ l.length by omega, hleft⟩
      · exact ⟨show sibling.rest.length ≤ N by omega,
          show (N + 1) / 2 - 1 ≤ sibling.rest.length by omega, hchain⟩
      · rw [hflat, hsame]
        have hpre : ∀ e ∈ Spine.flatten f node.first l, e.1 < key := fun e he =>
          lt_of_lt_of_le (WithTop.coe_lt_coe.mp (Chain.within hP hb hleft e he).2) hsk
        have hmid := inserted_middle value
          (L (Spine.childAt c r (Spine.position key r)))
          (Spine.flatten f c r) hpre (List.forall_mem_nil _)
        rw [List.append_nil, List.append_nil] at hmid
        rw [← hmid]
        exact congrArg (Spine.flatten f node.first l ++ ·) hcont
  · have hroom : node.rest.length < N := lt_of_le_of_ne hsize hfull
    obtain ⟨node', hins, hchain, hcont, hn₁, hn₂⟩ :=
      innerInsertNonfull_spec (L := L) hP hb hchild node h hk hroom
    refine ⟨⟨node', none⟩, ?_, ⟨show node'.rest.length ≤ N by omega, le_trans hfilled hn₁, hchain⟩,
      hcont⟩
    rw [innerInsert, if_neg hfull, hins, Option.map_some]

end Inner

/-! ### Nodes -/

namespace Node

variable {N M : ℕ}

/-- A node with a lower bound holds that key, as its least. -/
theorem exists_least (d : ℕ) {root : Bool} {s : K} {node : Node K V d} {hi : WithTop K}
    (h : node.WellFormed N M d root s hi) : ∃ e ∈ contents d node, e.1 = s := by
  induction d generalizing root hi with
  | zero =>
    have h : LeafNode.WellFormed M root s node hi := h
    have hhead := h.least s rfl
    obtain ⟨e, he, hk⟩ := Option.map_eq_some_iff.mp hhead
    exact ⟨e, List.mem_of_head? he, hk⟩
  | succ d ih =>
    obtain ⟨-, -, hchain⟩ := h
    obtain ⟨b, hb⟩ := hchain.first
    obtain ⟨e, he, hk⟩ := ih hb
    exact ⟨e, List.mem_append_left _ he, hk⟩

/-- The keys of a node lie between its bounds. -/
theorem within (d : ℕ) {root : Bool} {lo : WithBot K} {node : Node K V d} {hi : WithTop K}
    (h : node.WellFormed N M d root lo hi) : ∀ e ∈ contents d node, Chain.Within lo hi e.1 := by
  induction d generalizing root lo hi with
  | zero => exact fun e he => ⟨LeafNode.WellFormed.lo_le h e he, LeafNode.WellFormed.below h e he⟩
  | succ d ih =>
    have hsep : Chain.Separates (Node.WellFormed (K := K) (V := V) N M d false) := fun s c b hc => by
      obtain ⟨e, he, hk⟩ := exists_least d hc
      exact hk ▸ (ih hc e he).2
    exact Chain.within hsep (fun a c b hc => ih hc) h.2.2

theorem separates (d : ℕ) : Chain.Separates (Node.WellFormed (K := K) (V := V) N M d false) :=
  fun s c b hc => by
    obtain ⟨e, he, hk⟩ := exists_least d hc
    exact hk ▸ (within d hc e he).2

theorem bounded (d : ℕ) :
    Chain.Bounded (Node.WellFormed (K := K) (V := V) N M d false) Prod.fst (contents d) :=
  fun _ _ _ hc => within d hc

/-- The keys of a node increase. -/
theorem sorted (d : ℕ) {root : Bool} {lo : WithBot K} {node : Node K V d} {hi : WithTop K}
    (h : node.WellFormed N M d root lo hi) : Assoc.Sorted (contents d node) := by
  induction d generalizing root lo hi with
  | zero => exact LeafNode.WellFormed.sorted h
  | succ d ih =>
    obtain ⟨-, -, hchain⟩ := h
    change Assoc.Sorted (Spine.flatten (contents d) node.first node.rest)
    generalize node.first = c at hchain
    generalize node.rest = rest at hchain
    induction rest generalizing lo c with
    | nil =>
      rw [Spine.flatten_nil]
      exact ih hchain
    | cons x rest ihr =>
      obtain ⟨s, c'⟩ := x
      rw [Spine.flatten_cons, Assoc.Sorted, List.pairwise_append]
      refine ⟨ih hchain.1, ihr c' hchain.2, fun e he e' he' => ?_⟩
      exact lt_of_lt_of_le (WithTop.coe_lt_coe.mp (within d hchain.1 e he).2)
        (WithBot.coe_le_coe.mp (Chain.within (separates d) (bounded d) hchain.2 e' he').1)

/-- **Insertion into a node.** No assertion fails, what is left is well formed, and it
holds the entries of before with the key written, unless the key is lost. -/
theorem insert_spec (hN : 2 < N) (hM : 1 < M) (d : ℕ) {root : Bool} {lo : WithBot K}
    {node : Node K V d} {hi : WithTop K} (h : node.WellFormed N M d root lo hi) {key : K}
    (hk : Chain.Within lo hi key) (value : Option V) :
    ∃ r, insert N M d node key value = some r ∧
      r.Ok (Node.WellFormed N M d) (contents d) root lo hi
        (inserted (node.Loses M d key) key value (contents d node)) := by
  induction d generalizing root lo hi with
  | zero => exact LeafNode.leafInsert_spec hM h hk value
  | succ d ih =>
    obtain ⟨hsize, hfilled, hchain⟩ := h
    exact innerInsert_spec (L := fun c => Node.Loses M d c key) hN (separates d) (bounded d)
      (fun a c b hc hkc => ih hc hkc) hsize hfilled hchain hk

/-- A node only loses a key that is zero. -/
theorem eq_zero_of_loses (d : ℕ) {root : Bool} {lo : WithBot K} {node : Node K V d}
    {hi : WithTop K} (h : node.WellFormed N M d root lo hi) {key : K}
    (hk : Chain.Within lo hi key) (hl : node.Loses M d key) : key = 0 := by
  induction d generalizing root lo hi with
  | zero => exact LeafNode.WellFormed.eq_zero_of_loses h hk.2 hl
  | succ d ih =>
    obtain ⟨a, b, pre, post, hr, hab, -, -⟩ :=
      Chain.route (separates d) (bounded d) h.2.2 hk
    exact ih hr.child hab hl

end Node

end TpccBench
