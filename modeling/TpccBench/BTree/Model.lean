import TpccBench.Lib.SortedAssoc
import TpccBench.Lib.Spine

/-!
# The B+ tree of `btree.h`

`TpccBench.BPlusTree` is the source's `BPlusTree<KEY, VALUE, N, M>`: a depth and a
root, which is a leaf exactly when the depth is zero. The source casts a `void*`
according to the depth it has reached; here the depth is the index of the type
(`TpccBench.Node`), so the assertions on `node->type` hold by construction and are
not repeated. All other assertions are kept: a function that has one returns
`Option`, and `none` is the failed assertion, or a read outside an array.

* A **leaf** keeps its two arrays whole, unused slots included: `leaf_insert_nonfull`
  compares the key with the slot at `num_keys`, so what the unused slots hold
  matters. An array is a function of the index, of which only the indices below `M`
  are slots.
* The slots of an **inner** node from `num_keys` on are never read, so an inner node
  is a `TpccBench.Spine`.
* A value is nullable, as the pointers stored in it are: `none` is the null value, and
  a stored null value is a *tombstone*, the mark `del` leaves.

The key type is any linear order with a distinguished `0`, the value `memset` gives
the keys of a new leaf.
-/

namespace TpccBench

/-- Overwrite one slot of an array. -/
def setSlot {α : Type} (a : ℕ → α) (i : ℕ) (x : α) : ℕ → α :=
  fun j => if j = i then x else a j

/-- The loop `for (i = num_keys; i > index; --i) a[i] = a[i-1]`. -/
def shiftUp {α : Type} (index : ℕ) : ℕ → (ℕ → α) → ℕ → α
  | 0, a => a
  | i + 1, a => if index < i + 1 then shiftUp index i (setSlot a (i + 1) (a i)) else a

/-- `LeafNode`: `num_keys` and the two arrays. -/
structure LeafNode (K V : Type) where
  numKeys : ℕ
  keys : ℕ → K
  values : ℕ → Option V

/-- `InnerNode`: the children interleaved with the keys in use. -/
abbrev InnerNode (K C : Type) := Spine K C

/-- A node at a distance `d` from the leaves. -/
def Node (K V : Type) : ℕ → Type
  | 0 => LeafNode K V
  | d + 1 => InnerNode K (Node K V d)

/-- `BPlusTree`: its `depth` and its `root`. -/
structure BPlusTree (K V : Type) where
  depth : ℕ
  root : Node K V depth

/-- What an insertion leaves of a node: the node itself (`result->left`) and, when it
`was_split`, `result->key` and `result->right`. -/
structure Inserted (K C : Type) where
  node : C
  split : Option (K × C)

variable {K V C : Type} [LinearOrder K]

/-! ### Leaves -/

/-- The live slots of a leaf, in order. -/
def LeafNode.entries (leaf : LeafNode K V) : List (K × Option V) :=
  (List.range leaf.numKeys).map fun i => (leaf.keys i, leaf.values i)

/-- `LeafNode()`: no keys in use, and the key array zeroed. -/
def LeafNode.new [Zero K] : LeafNode K V where
  numKeys := 0
  keys := fun _ => 0
  values := fun _ => none

/-- The loop of `leaf_position_for` from slot `k`, `n` slots before `num_keys`. -/
def leafPositionFrom (key : K) (keys : ℕ → K) : ℕ → ℕ → ℕ
  | 0, k => k
  | n + 1, k => if keys k < key then leafPositionFrom key keys n (k + 1) else k

/-- `leaf_position_for`. -/
def leafPositionFor (key : K) (keys : ℕ → K) (numKeys : ℕ) : ℕ :=
  leafPositionFrom key keys numKeys 0

/-- `leaf_insert_nonfull`. The key is compared with the slot at `index` even when that
is the first unused slot. -/
def leafInsertNonfull (M : ℕ) (node : LeafNode K V) (key : K) (value : Option V) (index : ℕ) :
    Option (LeafNode K V) :=
  if node.numKeys < M ∧ index < M ∧ index ≤ node.numKeys then
    if node.keys index = key then
      some { node with values := setSlot node.values index value }
    else
      some
        { numKeys := node.numKeys + 1
          keys := setSlot (shiftUp index node.numKeys node.keys) index key
          values := setSlot (shiftUp index node.numKeys node.values) index value }
  else none

/-- The new sibling of `leaf_insert`: the slots of `node` from `treshold` on, in a new
leaf. -/
def LeafNode.sibling [Zero K] (node : LeafNode K V) (treshold : ℕ) : LeafNode K V where
  numKeys := node.numKeys - treshold
  keys := fun j => if j < node.numKeys - treshold then node.keys (treshold + j) else 0
  values := fun j => if j < node.numKeys - treshold then node.values (treshold + j) else none

/-- `leaf_insert`. Splitting a leaf leaves its slots from `treshold` on as they were,
now unused. -/
def leafInsert [Zero K] (M : ℕ) (node : LeafNode K V) (key : K) (value : Option V) :
    Option (Inserted K (LeafNode K V)) :=
  if node.numKeys ≤ M then
    let i := leafPositionFor key node.keys node.numKeys
    if node.numKeys = M then
      let treshold := (M + 1) / 2
      let left := { node with numKeys := treshold }
      let sibling := node.sibling treshold
      if i < treshold then
        (leafInsertNonfull M left key value i).map fun left =>
          ⟨left, some (sibling.keys 0, sibling)⟩
      else
        (leafInsertNonfull M sibling key value (i - treshold)).map fun sibling =>
          ⟨left, some (sibling.keys 0, sibling)⟩
    else
      (leafInsertNonfull M node key value i).map fun node => ⟨node, none⟩
  else none

/-! ### Inner nodes -/

/-- `inner_insert_nonfull`, given what inserting does to a child. -/
def innerInsertNonfull (N : ℕ) (insertChild : C → Option (Inserted K C)) (node : InnerNode K C)
    (key : K) : Option (InnerNode K C) :=
  if node.rest.length < N then
    let index := Spine.position key node.rest
    (insertChild (node.child index)).map fun r =>
      match r.split with
      | none => node.setChild index r.node
      | some (s, right) => node.splitChild index r.node s right
  else none

/-- `inner_insert`: a full node is split before the descent, whether or not a split
follows below. -/
def innerInsert (N : ℕ) (insertChild : C → Option (Inserted K C)) (node : InnerNode K C)
    (key : K) : Option (Inserted K (InnerNode K C)) :=
  if node.rest.length = N then
    let treshold := (N + 1) / 2
    match node.rest[treshold - 1]? with
    | none => none
    | some (s, c) =>
      let left : InnerNode K C := ⟨node.first, node.rest.take (treshold - 1)⟩
      let sibling : InnerNode K C := ⟨c, node.rest.drop treshold⟩
      if key < s then
        (innerInsertNonfull N insertChild left key).map fun left => ⟨left, some (s, sibling)⟩
      else
        (innerInsertNonfull N insertChild sibling key).map fun sibling =>
          ⟨left, some (s, sibling)⟩
  else
    (innerInsertNonfull N insertChild node key).map fun node => ⟨node, none⟩

namespace Node

/-- The entries of a subtree, tombstones included, from left to right. -/
def contents : (d : ℕ) → Node K V d → List (K × Option V)
  | 0, leaf => LeafNode.entries leaf
  | d + 1, inner => Spine.flatten (contents d) inner.first inner.rest

/-- The insertion into a node: `leaf_insert` or `inner_insert`. -/
def insert [Zero K] (N M : ℕ) :
    (d : ℕ) → Node K V d → K → Option V → Option (Inserted K (Node K V d))
  | 0, leaf, key, value => leafInsert M leaf key value
  | d + 1, inner, key, value =>
    innerInsert N (fun child => insert N M d child key value) inner key

/-- `find` from a node on; `value` is what the output variable holds before. -/
def find : (d : ℕ) → Node K V d → K → Option V → Bool × Option V
  | 0, leaf, key, value =>
    let leaf : LeafNode K V := leaf
    let index := leafPositionFor key leaf.keys leaf.numKeys
    if index < leaf.numKeys ∧ leaf.keys index = key then
      ((leaf.values index).isSome, leaf.values index)
    else (false, value)
  | d + 1, inner, key, value =>
    let inner : InnerNode K (Node K V d) := inner
    find d (inner.child (Spine.position key inner.rest)) key value

/-- `del` from a node on. The slot at `index` is read whatever `num_keys` is, so the
read of a full leaf may fall outside its array. -/
def del (M : ℕ) : (d : ℕ) → Node K V d → K → Option (Bool × Node K V d)
  | 0, leaf, key =>
    let leaf : LeafNode K V := leaf
    let index := leafPositionFor key leaf.keys leaf.numKeys
    if index < M then
      if leaf.keys index = key then
        some (true, ({ leaf with values := setSlot leaf.values index none } : LeafNode K V))
      else some (false, leaf)
    else none
  | d + 1, inner, key =>
    let inner : InnerNode K (Node K V d) := inner
    let index := Spine.position key inner.rest
    (del M d (inner.child index) key).map fun r => (r.1, inner.setChild index r.2)

/-- `pos -= 1` on an `unsigned`: at zero it wraps to a number no `num_keys` is above. -/
def before : ℕ → Option ℕ
  | 0 => none
  | pos + 1 => some pos

/-- The slot `findLastLessThan` stops at, from a node on; `none` inside is no slot. -/
def lastSlotBelow : (d : ℕ) → Node K V d → K → Option (Option (K × Option V))
  | 0, leaf, key =>
    let leaf : LeafNode K V := leaf
    let pos := before (leafPositionFor key leaf.keys leaf.numKeys)
    let pos := pos.bind fun p => if p < leaf.numKeys ∧ key = leaf.keys p then before p else some p
    match pos with
    | none => some none
    | some p =>
      if p < leaf.numKeys then
        if leaf.keys p < key then some (some (leaf.keys p, leaf.values p)) else none
      else some none
  | d + 1, inner, key =>
    let inner : InnerNode K (Node K V d) := inner
    let pos := Spine.positionBelow key inner.rest
    if pos = 0 ∨ (inner.keys[pos - 1]?).any (fun s => decide (s < key)) then
      lastSlotBelow d (inner.child pos) key
    else none

end Node

namespace BPlusTree

/-- `BPlusTree()`: a single empty leaf. -/
def empty [Zero K] : BPlusTree K V := ⟨0, LeafNode.new⟩

/-- The entries of the tree, tombstones included, in key order. -/
def contents (t : BPlusTree K V) : List (K × Option V) := Node.contents t.depth t.root

/-- `insert`. -/
def insert [Zero K] (N M : ℕ) (t : BPlusTree K V) (key : K) (value : Option V) :
    Option (BPlusTree K V) :=
  (Node.insert N M t.depth t.root key value).map fun r =>
    match r.split with
    | none => ⟨t.depth, r.node⟩
    | some (s, right) => ⟨t.depth + 1, (⟨r.node, [(s, right)]⟩ : InnerNode K _)⟩

/-- `find`, with the output variable. -/
def findInto (t : BPlusTree K V) (key : K) (value : Option V) : Bool × Option V :=
  Node.find t.depth t.root key value

/-- `find`: the value when it returns true. -/
def find (t : BPlusTree K V) (key : K) : Option V :=
  let r := t.findInto key none
  if r.1 then r.2 else none

/-- `del`. -/
def del (M : ℕ) (t : BPlusTree K V) (key : K) : Option (Bool × BPlusTree K V) :=
  (Node.del M t.depth t.root key).map fun r => (r.1, ⟨t.depth, r.2⟩)

end BPlusTree

end TpccBench
