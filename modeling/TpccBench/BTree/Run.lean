import Mathlib.Order.Bounds.Defs
import TpccBench.Lib.Run
import TpccBench.BTree.Search

/-!
# A tree over a whole run

Insertions of non-null values, and deletions of keys that are live, from the empty tree
on. The abstract state of a run is not a second data structure but its own history: what
the tree should answer for a key is what the *last* operation on the key left
(`TpccBench.liveValue`).

The tree answers so (`TpccBench.TreeOp.Answers`) as long as no insertion of the zero key
meets a leaf that loses it, and only that long (`TpccBench.TreeOp.refines_iff`): a new leaf
has its key array zeroed, and `leaf_insert_nonfull` takes an unused zero for a zero key
that is already there. Insertions of the other keys are never lost, whatever stale keys
the splits have left behind.
-/

namespace TpccBench

variable {K V : Type} [LinearOrder K]

/-- An operation on the tree. -/
inductive TreeOp (K V : Type)
  | insert (key : K) (value : V)
  | del (key : K)
  deriving DecidableEq

namespace TreeOp

/-- The key of an operation. -/
def key : TreeOp K V → K
  | insert key _ => key
  | del key => key

/-- What an operation leaves of its key. -/
def left : TreeOp K V → Option V
  | insert _ value => some value
  | del _ => none

/-- **What the last operation on a key left of it.** -/
def liveValue (ops : List (TreeOp K V)) (key : K) : Option V :=
  (ops.reverse.find? fun op => decide (op.key = key)).bind left

/-- Only keys that are live are deleted. -/
def Allowed (done : List (TreeOp K V)) : TreeOp K V → Prop
  | insert _ _ => True
  | del key => (liveValue done key).isSome

instance (done : List (TreeOp K V)) : (op : TreeOp K V) → Decidable (Allowed done op)
  | insert _ _ => isTrue trivial
  | del key => inferInstanceAs (Decidable ((liveValue done key).isSome = true))

theorem liveValue_snoc (ops : List (TreeOp K V)) (op : TreeOp K V) (key : K) :
    liveValue (ops ++ [op]) key = if op.key = key then op.left else liveValue ops key := by
  rw [liveValue, List.reverse_append, List.reverse_singleton, List.singleton_append, List.find?_cons]
  by_cases h : op.key = key
  · simp [h]
  · simp [h, liveValue]

variable [Zero K] (N M : ℕ)

/-- One operation on the tree. -/
def step (t : BPlusTree K V) : TreeOp K V → Option (BPlusTree K V)
  | insert key value => t.insert N M key (some value)
  | del key => (t.del M key).map Prod.snd

/-- The tree after a list of operations on the empty tree. -/
def tree (ops : List (TreeOp K V)) : Option (BPlusTree K V) :=
  Run.result (step N M) BPlusTree.empty ops

/-- **The tree answers as its history says**: `find` returns true exactly when the last
operation on the key was an insertion, and its value is then the one found. -/
def Answers (ops : List (TreeOp K V)) (t : BPlusTree K V) : Prop :=
  ∀ key value, match liveValue ops key with
    | some v => t.findInto key value = (true, some v)
    | none => (t.findInto key value).1 = false

/-- No assertion fails, and the tree answers as its history says, all through a run. -/
def Refines (ops : List (TreeOp K V)) : Prop :=
  ∀ done, done <+: ops → ∃ t, tree N M done = some t ∧ Answers done t

/-- An insertion is not one of the zero key into a tree that loses it. -/
def Kept (done : List (TreeOp K V)) : TreeOp K V → Prop
  | insert key _ => key = 0 → ∀ t ∈ tree N M done, ¬t.Loses M key
  | del _ => True

instance (done : List (TreeOp K V)) : (op : TreeOp K V) → Decidable (Kept N M done op)
  | insert key _ =>
    inferInstanceAs (Decidable (key = 0 → ∀ t ∈ tree N M done, ¬t.Loses M key))
  | del _ => isTrue trivial

variable {N M}

/-- The invariant of a run: the tree is well formed and holds what the history says, tombstones included. -/
structure Holds (N M : ℕ) (ops : List (TreeOp K V)) (t : BPlusTree K V) : Prop where
  wellFormed : t.WellFormed N M
  lookup : ∀ key, (t.contents.lookup key).join = liveValue ops key
  storedIff : ∀ key, (t.contents.lookup key).isSome ↔ ∃ v, insert key v ∈ ops

/-- What is deleted was stored. -/
theorem Holds.stored {ops : List (TreeOp K V)} {t : BPlusTree K V} (h : Holds N M ops t) {key : K}
    (hlive : (liveValue ops key).isSome) : (t.contents.lookup key).isSome := by
  rw [← h.lookup key] at hlive
  cases hl : t.contents.lookup key with
  | none => simp [hl] at hlive
  | some v => rfl

theorem Holds.answers {ops : List (TreeOp K V)} {t : BPlusTree K V} (h : Holds N M ops t) :
    Answers ops t := by
  intro key value
  rw [← h.lookup key, BPlusTree.findInto_spec h.wellFormed, Node.report]
  cases t.contents.lookup key with
  | none => rfl
  | some v => cases v <;> rfl

/-- An upsert leaves the other keys what they were. -/
theorem Holds.upsert {ops : List (TreeOp K V)} {t t' : BPlusTree K V} (h : Holds N M ops t)
    {op : TreeOp K V} (hwf : t'.WellFormed N M) (hop : ∃ v, insert op.key v ∈ ops ++ [op])
    (hcont : t'.contents = Assoc.upsert op.key op.left t.contents) : Holds N M (ops ++ [op]) t' := by
  refine ⟨hwf, fun key => ?_, fun key => ?_⟩
  · rw [hcont, Assoc.lookup_upsert, liveValue_snoc, ← h.lookup key]
    by_cases hk : op.key = key
    · simp [hk]
    · simp [hk, Ne.symm hk]
  · rw [hcont, Assoc.lookup_upsert]
    by_cases hk : key = op.key
    · rw [if_pos hk, hk]
      exact iff_of_true rfl hop
    · have hnot (v : V) : insert key v ≠ op := fun heq => hk (congrArg TreeOp.key heq)
      rw [if_neg hk, h.storedIff]
      simp only [List.mem_append, List.mem_singleton, hnot, or_false]

/-- **One step of a run.** -/
theorem Holds.step (hN : 2 < N) (hM : 1 < M) {done : List (TreeOp K V)} {op : TreeOp K V}
    {t : BPlusTree K V} (h : Holds N M done t) (hdel : Allowed done op)
    (hkept : ∀ key v, op = .insert key v → ¬t.Loses M key) :
    ∃ t', TreeOp.step N M t op = some t' ∧ Holds N M (done ++ [op]) t' := by
  cases op with
  | insert key v =>
    obtain ⟨t', hins, hwf, hcont⟩ := BPlusTree.insert_spec hN hM h.wellFormed key (some v)
    rw [inserted, if_neg (hkept key v rfl)] at hcont
    exact ⟨t', hins, h.upsert hwf ⟨v, List.mem_append_right _ List.mem_cons_self⟩ hcont⟩
  | del key =>
    obtain ⟨v, hv⟩ := (h.storedIff key).mp (h.stored hdel)
    obtain ⟨t', hdel, hwf, hcont⟩ := BPlusTree.del_spec h.wellFormed (h.stored hdel)
    exact ⟨t', by rw [TreeOp.step, hdel, Option.map_some], h.upsert hwf ⟨v, List.mem_append_left _ hv⟩ hcont⟩

theorem Holds.empty : Holds N M ([] : List (TreeOp K V)) BPlusTree.empty :=
  ⟨BPlusTree.empty_wellFormed, fun _ => rfl, fun _ => iff_of_false (by simp) (by simp)⟩

/-- Only the zero key is ever lost. -/
theorem Holds.not_loses {done : List (TreeOp K V)} {op : TreeOp K V} {t : BPlusTree K V}
    (h : Holds N M done t) (ht : tree N M done = some t) (hkept : Kept N M done op) :
    ∀ key v, op = .insert key v → ¬t.Loses M key := by
  rintro key v rfl hl
  exact hkept (Node.eq_zero_of_loses t.depth h.wellFormed (BPlusTree.within_all key) hl) t ht hl

/-- **A run that loses no key.** -/
theorem holds_of_kept (hN : 2 < N) (hM : 1 < M) {ops : List (TreeOp K V)}
    (hdel : Run.Each Allowed ops) (hkept : Run.Each (Kept N M) ops) :
    ∃ t, tree N M ops = some t ∧ Holds N M ops t :=
  Run.induction Holds.empty
    (fun _ _ _ ht hI hop => hI.step hN hM hop.1 (hI.not_loses ht hop.2)) (hdel.and hkept)

/-- A tree that answers as its history says has lost nothing: the zero key of a lost
insertion would not be found. -/
theorem Holds.not_answers (hN : 2 < N) (hM : 1 < M) {done : List (TreeOp K V)}
    {t t' : BPlusTree K V} (h : Holds N M done t) {key : K} {v : V} (hlost : t.Loses M key)
    (hstep : TreeOp.step N M t (.insert key v) = some t') :
    ¬Answers (done ++ [.insert key v]) t' := by
  intro hans
  obtain ⟨t'', hins, hwf, hcont⟩ := BPlusTree.insert_spec hN hM h.wellFormed key (some v)
  obtain rfl := Option.some.inj (hstep.symm.trans hins)
  rw [inserted, if_pos hlost] at hcont
  have hfind : t'.findInto key none = (false, none) := by
    rw [BPlusTree.findInto_spec hwf, hcont, ← BPlusTree.findInto_spec h.wellFormed]
    exact BPlusTree.findInto_of_loses hlost none
  have hlive : liveValue (done ++ [insert key v]) key = some v :=
    (liveValue_snoc done (insert key v) key).trans (if_pos rfl)
  have hfound := hans key none
  rw [hlive] at hfound
  exact absurd (hfind.symm.trans hfound) (by simp)

/-- A run that refines the map loses no key. -/
theorem Refines.kept (hN : 2 < N) (hM : 1 < M) {ops : List (TreeOp K V)}
    (hdel : Run.Each Allowed ops) (h : Refines N M ops) : Run.Each (Kept N M) ops := by
  induction ops using List.reverseRecOn with
  | nil => exact Run.each_nil
  | append_singleton ops op ih =>
    have hdel' := Run.each_snoc.mp hdel
    have hkept := ih hdel'.1 fun done hd => h done (hd.trans (List.prefix_append ops [op]))
    refine Run.each_snoc.mpr ⟨hkept, ?_⟩
    cases op with
    | del key => trivial
    | insert key v =>
      intro _ t ht hlost
      obtain ⟨t₀, ht₀, hholds⟩ := holds_of_kept hN hM hdel'.1 hkept
      obtain rfl := Option.some.inj (ht₀.symm.trans ht)
      obtain ⟨t', ht', hans⟩ := h _ (List.prefix_refl _)
      rw [tree, Run.result_snoc] at ht'
      exact hholds.not_answers hN hM hlost
        ((congrArg (Option.bind · _) ht).symm.trans ht') hans

/-- **The tree refines a finite map exactly as long as no insertion of the zero key
meets a leaf that loses it.** -/
theorem refines_iff (hN : 2 < N) (hM : 1 < M) {ops : List (TreeOp K V)}
    (hdel : Run.Each Allowed ops) : Refines N M ops ↔ Run.Each (Kept N M) ops := by
  refine ⟨fun h => h.kept hN hM hdel, fun hkept done hd => ?_⟩
  obtain ⟨t, ht, hholds⟩ := holds_of_kept hN hM (hdel.of_initial hd) (hkept.of_initial hd)
  exact ⟨t, ht, hholds.answers⟩

/-- A zero key inserted into the empty tree is lost. -/
theorem insert_zero_lost :
    Run.Each Allowed [insert (0 : ℤ) 7] ∧ ¬Refines 3 3 [insert (0 : ℤ) 7] := by
  refine ⟨by decide, fun h => ?_⟩
  obtain ⟨t, ht, hans⟩ := h _ (List.prefix_refl _)
  have hfound : t.findInto 0 none = (true, some 7) := hans 0 none
  obtain rfl := Option.some.inj ht
  exact absurd hfound (by decide)

/-- A zero key inserted below another key is not. -/
theorem insert_zero_below_kept : Refines 3 3 [insert (5 : ℤ) 1, insert 0 7, del 5] :=
  (refines_iff (by decide) (by decide) (by decide)).mpr (by decide)

/-! ### The predecessor search -/

/-- **What a search for the last key below `x` should report**: the greatest live key
below it and the value of that key, or nothing, with both output variables as they
were. -/
def Predecessor (ops : List (TreeOp K V)) (x : K) (value : Option V) (outKey : K) :
    Bool × Option V × K → Prop
  | (true, v, k) => IsGreatest {k | (liveValue ops k).isSome ∧ k < x} k ∧ v = liveValue ops k
  | (false, v, k) => {k | (liveValue ops k).isSome ∧ k < x} = ∅ ∧ v = value ∧ k = outKey

/-- A key is live exactly when the tree has a live entry for it. -/
theorem Holds.mem_live {ops : List (TreeOp K V)} {t : BPlusTree K V} (h : Holds N M ops t) {k : K}
    {v : V} : (k, v) ∈ Assoc.live t.contents ↔ liveValue ops k = some v := by
  have hs : Assoc.Sorted t.contents := Node.sorted t.depth h.wellFormed
  rw [Assoc.mem_live, ← h.lookup k]
  constructor
  · intro hm
    simp [Assoc.lookup_of_mem hs hm]
  · intro hl
    exact Assoc.mem_of_lookup (Option.join_eq_some_iff.mp hl)

/-- The keys that a run inserts are positive, as all packed keys are. -/
theorem kept_of_pos {ops : List (TreeOp K V)} (hpos : ∀ key v, insert key v ∈ ops → 0 < key) :
    Run.Each (Kept N M) ops := by
  rintro done op hd
  have hop : op ∈ ops := hd.subset (by simp)
  cases op with
  | insert key v => exact fun h0 => absurd h0 (ne_of_gt (hpos key v hop))
  | del key => trivial

/-- **The predecessor search is exact**: after any run on positive keys it ends, and
reports the greatest live key below the search key. -/
theorem findLastLessThan_predecessor (hN : 2 < N) (hM : 1 < M) {ops : List (TreeOp K V)}
    (hdel : Run.Each Allowed ops) (hpos : ∀ op ∈ ops, 0 < op.key) :
    ∃ t, tree N M ops = some t ∧ ∀ x value outKey,
      ∃ r, t.findLastLessThan x value outKey = some r ∧ Predecessor ops x value outKey r := by
  obtain ⟨t, ht, hholds⟩ := holds_of_kept hN hM hdel (kept_of_pos fun _ _ hop => hpos _ hop)
  have hs : Assoc.Sorted (Assoc.live t.contents) :=
    Assoc.sorted_live (Node.sorted t.depth hholds.wellFormed)
  refine ⟨t, ht, fun x value outKey =>
    ⟨_, t.findLastLessThan_spec hholds.wellFormed x value outKey, ?_⟩⟩
  cases hlast : Assoc.lastBelow x (Assoc.live t.contents) with
  | none =>
    refine ⟨Set.eq_empty_iff_forall_notMem.mpr fun k hk => ?_, rfl, rfl⟩
    obtain ⟨v, hv⟩ := Option.isSome_iff_exists.mp hk.1
    exact absurd hk.2 (not_lt_of_ge (Assoc.lastBelow_eq_none hlast _ (hholds.mem_live.mpr hv)))
  | some e =>
    obtain ⟨k, v⟩ := e
    obtain ⟨hmem, hlt⟩ := Assoc.mem_of_lastBelow hlast
    have hv := hholds.mem_live.mp hmem
    refine ⟨⟨⟨by simp [hv], hlt⟩, fun k' hk' => ?_⟩, hv.symm⟩
    obtain ⟨v', hv'⟩ := Option.isSome_iff_exists.mp hk'.1
    exact Assoc.le_of_lastBelow hs hlast _ (hholds.mem_live.mpr hv') hk'.2

/-- A deleted key is stepped over, and found once it is inserted again. -/
theorem findLastLessThan_reinsert :
    ∃ t, tree 3 3 [insert (3 : ℤ) 1, insert 5 2, del 5, insert 7 4, del 7, insert 5 6] = some t ∧
      ∀ x value outKey, ∃ r, t.findLastLessThan x value outKey = some r ∧
        Predecessor [insert (3 : ℤ) 1, insert 5 2, del 5, insert 7 4, del 7, insert 5 6]
          x value outKey r :=
  findLastLessThan_predecessor (by decide) (by decide) (by decide) (by decide)

end TreeOp

end TpccBench
