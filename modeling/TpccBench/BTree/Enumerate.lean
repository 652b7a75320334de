import TpccBench.BTree.Run

/-!
# The values of a tree, from the last to the first

`deleteBTreeValues` goes through a tree backwards: it searches for the last key below the largest
key there is, and then for the last key below the one it has found. One variable is the key it
searches for, which is passed by reference, and the key that the search writes
(`TpccBench.KeyRef`). The search writes at its end, and a search that starts again at a tombstone
refers to the slot of the tombstone; so it is the search for what the variable held before.
-/

namespace TpccBench

variable {K V : Type} [LinearOrder K]

/-- What the reference to a key refers to. -/
inductive KeyRef (K : Type)
  /-- The variable that is written. -/
  | outKey
  /-- A slot of a leaf. -/
  | slot (key : K)

/-- The key that is referred to. -/
def KeyRef.read (outKey : K) : KeyRef K → K
  | .outKey => outKey
  | .slot key => key

namespace BPlusTree

variable {N M : ℕ} {t : BPlusTree K V} {key : K}

/-- `findLastLessThan` of a key that is passed by reference. -/
def findLastLessThanRef (t : BPlusTree K V) (key : KeyRef K) (value : Option V) (outKey : K) :
    Option (Bool × Option V × K) :=
  match _h : Node.lastSlotBelow t.depth t.root (key.read outKey) with
  | none => none
  | some none => some (false, value, outKey)
  | some (some (k, some v)) => some (true, some v, k)
  | some (some (k, none)) => findLastLessThanRef t (.slot k) value outKey
termination_by t.storedBelow (key.read outKey)
decreasing_by
  obtain ⟨hmem, hlt⟩ := Node.mem_of_lastSlotBelow t.depth _h
  exact storedBelow_lt (e := (k, none)) hmem hlt

/-- What the search goes on with, whatever the slot is. -/
theorem findLastLessThan_eq (t : BPlusTree K V) (key : K) (value : Option V) (outKey : K) :
    t.findLastLessThan key value outKey = (Node.lastSlotBelow t.depth t.root key).bind fun
      | none => some (false, value, outKey)
      | some (k, some v) => some (true, some v, k)
      | some (k, none) => t.findLastLessThan k value outKey := by
  rw [findLastLessThan]
  split <;> simp [*]

theorem findLastLessThanRef_step (t : BPlusTree K V) (key : KeyRef K) (value : Option V) (outKey : K) :
    t.findLastLessThanRef key value outKey = (Node.lastSlotBelow t.depth t.root (key.read outKey)).bind fun
      | none => some (false, value, outKey)
      | some (k, some v) => some (true, some v, k)
      | some (k, none) => t.findLastLessThanRef (.slot k) value outKey := by
  rw [findLastLessThanRef]
  split <;> simp [*]

/-- **The key is not written before it is read.** -/
theorem findLastLessThanRef_eq (t : BPlusTree K V) (key : KeyRef K) (value : Option V) (outKey : K) :
    t.findLastLessThanRef key value outKey = t.findLastLessThan (key.read outKey) value outKey := by
  induction hn : t.storedBelow (key.read outKey) using Nat.strong_induction_on generalizing key with
  | _ n ih =>
    rw [findLastLessThanRef_step, findLastLessThan_eq]
    refine Option.bind_congr fun slot hslot => ?_
    match slot with
    | none => rfl
    | some (k, some v) => rfl
    | some (k, none) =>
      obtain ⟨hmem, hlt⟩ := Node.mem_of_lastSlotBelow t.depth hslot
      exact ih _ (hn ▸ storedBelow_lt hmem hlt) (.slot k) rfl

/-- What is found is stored, below the key. -/
theorem mem_of_findLastLessThan {value v : Option V} {outKey k : K}
    (h : t.findLastLessThan key value outKey = some (true, v, k)) :
    ∃ e ∈ t.contents, e.1 = k ∧ k < key := by
  induction hn : t.storedBelow key using Nat.strong_induction_on generalizing key with
  | _ n ih =>
    rw [findLastLessThan] at h
    split at h
    · exact absurd h (by simp)
    · exact absurd h (by simp)
    · next k' v' heq =>
      obtain ⟨hmem, hlt⟩ := Node.mem_of_lastSlotBelow t.depth heq
      obtain ⟨-, heq⟩ := Prod.mk.inj (Option.some.inj h)
      obtain ⟨-, rfl⟩ := Prod.mk.inj heq
      exact ⟨_, hmem, rfl, hlt⟩
    · next k' heq =>
      obtain ⟨hmem, hlt⟩ := Node.mem_of_lastSlotBelow t.depth heq
      obtain ⟨e, he, hk, hlt'⟩ := ih _ (hn ▸ storedBelow_lt (e := (k', none)) hmem hlt) h rfl
      exact ⟨e, he, hk, lt_trans hlt' hlt⟩

/-- The loop of `deleteBTreeValues`, and the values it deletes. -/
def deleteValuesFrom (t : BPlusTree K V) (key : K) (value : Option V) : Option (List (K × V)) :=
  match _h : t.findLastLessThanRef .outKey value key with
  | none => none
  | some (false, _, _) => some []
  | some (true, none, _) => none
  | some (true, some v, k) => (deleteValuesFrom t k (some v)).map ((k, v) :: ·)
termination_by t.storedBelow key
decreasing_by
  rw [findLastLessThanRef_eq] at _h
  obtain ⟨e, hmem, rfl, hlt⟩ := mem_of_findLastLessThan _h
  exact storedBelow_lt hmem hlt

/-- A turn of the loop. -/
theorem deleteValuesFrom_eq (t : BPlusTree K V) (key : K) (value : Option V) :
    t.deleteValuesFrom key value = (t.findLastLessThan key value key).bind fun
      | (false, _, _) => some []
      | (true, none, _) => none
      | (true, some v, k) => (t.deleteValuesFrom k (some v)).map ((k, v) :: ·) := by
  have href : t.findLastLessThanRef .outKey value key = t.findLastLessThan key value key :=
    t.findLastLessThanRef_eq .outKey value key
  rw [deleteValuesFrom, ← href]
  clear href
  split <;> simp [*]

/-- `deleteBTreeValues`, from the largest key on. -/
def deleteBTreeValues (t : BPlusTree K V) (max : K) : Option (List (K × V)) := t.deleteValuesFrom max none

variable [Zero K]

/-- **The loop goes through the live entries below a key**, from the last to the first. -/
theorem deleteValuesFrom_spec (h : t.WellFormed N M) (key : K) (value : Option V) :
    t.deleteValuesFrom key value =
      some ((Assoc.live t.contents).filter fun e => decide (e.1 < key)).reverse := by
  induction hn : t.storedBelow key using Nat.strong_induction_on generalizing key value with
  | _ n ih =>
    have hspec := t.findLastLessThan_spec h key value key
    have hs : Assoc.Sorted (Assoc.live t.contents) := Assoc.sorted_live (Node.sorted t.depth h)
    rw [deleteValuesFrom_eq, hspec, Option.bind_some]
    clear hspec
    cases hlast : Assoc.lastBelow key (Assoc.live t.contents) with
    | none =>
      -- nothing is left
      rw [Assoc.lastBelow, List.getLast?_eq_none_iff] at hlast
      rw [hlast, List.reverse_nil]
    | some e =>
      obtain ⟨k, v⟩ := e
      obtain ⟨hmem, hlt⟩ := Assoc.mem_of_lastBelow hlast
      have hbelow : t.storedBelow k < t.storedBelow key :=
        storedBelow_lt (e := (k, some v)) (Assoc.mem_live.mp hmem) hlt
      simp only [ih _ (hn ▸ hbelow) k (some v) rfl, Option.map_some]
      rw [Assoc.filter_lt_of_lastBelow hs hlast, List.reverse_append, List.reverse_singleton,
        List.singleton_append]

end BPlusTree

namespace TreeOp

variable [Zero K] {N M : ℕ}

omit [Zero K] in
/-- A live key is one that was inserted. -/
theorem key_of_liveValue {ops : List (TreeOp K V)} {k : K} {v : V} (h : liveValue ops k = some v) :
    ∃ op ∈ ops, op.key = k := by
  obtain ⟨op, hop, -⟩ := Option.bind_eq_some_iff.mp h
  have hkey := List.find?_some hop
  exact ⟨op, List.mem_reverse.mp (List.mem_of_find?_eq_some hop), by simpa using hkey⟩

/-- **Every live value is deleted once**, in the order of the falling keys, and none besides. -/
theorem deleteBTreeValues_live (hN : 2 < N) (hM : 1 < M) {max : K} {ops : List (TreeOp K V)}
    (hdel : Run.Each Allowed ops) (hpos : ∀ op ∈ ops, 0 < op.key) (hmax : ∀ op ∈ ops, op.key < max) :
    ∃ t l, tree N M ops = some t ∧ t.deleteBTreeValues max = some l ∧
      l.Pairwise (fun e e' => e'.1 < e.1) ∧ ∀ k v, (k, v) ∈ l ↔ liveValue ops k = some v := by
  obtain ⟨t, ht, hholds⟩ := holds_of_kept hN hM hdel (kept_of_pos fun _ _ hop => hpos _ hop)
  refine ⟨t, _, ht, t.deleteValuesFrom_spec hholds.wellFormed max none, ?_, fun k v => ?_⟩
  · rw [List.pairwise_reverse]
    exact List.Pairwise.filter _ (Assoc.sorted_live (Node.sorted t.depth hholds.wellFormed))
  · rw [List.mem_reverse, List.mem_filter, hholds.mem_live, and_iff_left_iff_imp]
    intro hlive
    obtain ⟨op, hop, rfl⟩ := key_of_liveValue hlive
    exact decide_eq_true (hmax op hop)

end TreeOp

end TpccBench
