import TpccBench.BTree.Delete
import Mathlib.Data.Nat.Log

/-!
# The shape of the tree after any run

`TpccBench.Node.WellFormed` is the invariant that carries an insertion, with bounds that are handed
from a node to its children. Here is what it says of a whole tree, node by node
(`TpccBench.BPlusTree.Shaped`): every leaf at one depth, keys increasing in each node and over all
leaves, each separator the least stored key to its right, all nodes but the root at least half full,
and so a height that is at most a logarithm of the number of stored keys.
-/

namespace TpccBench

variable {K V : Type}

namespace Node

/-- A property of a node and of every node below it. -/
def All (P : (d : ℕ) → Node K V d → Prop) : (d : ℕ) → Node K V d → Prop
  | 0, leaf => P 0 leaf
  | d + 1, inner =>
    let n : InnerNode K (Node K V d) := inner
    P (d + 1) inner ∧ ∀ c ∈ n.children, All P d c

/-- A property of every node below a node. -/
def Below (P : (d : ℕ) → Node K V d → Prop) : (d : ℕ) → Node K V d → Prop
  | 0, _ => True
  | d + 1, inner =>
    let n : InnerNode K (Node K V d) := inner
    ∀ c ∈ n.children, All P d c

/-- The leaves from left to right, each with the number of steps that lead to it. -/
def leaves : (d : ℕ) → Node K V d → List (ℕ × LeafNode K V)
  | 0, leaf => [(0, leaf)]
  | d + 1, inner =>
    let n : InnerNode K (Node K V d) := inner
    n.children.flatMap fun c => (leaves d c).map fun l => (l.1 + 1, l.2)

/-- The keys in use of a node. -/
def keys : (d : ℕ) → Node K V d → List K
  | 0, leaf => (LeafNode.entries leaf).map Prod.fst
  | _ + 1, inner => Spine.keys inner

/-- The most keys of a node at a distance from the leaves. -/
def most (N M : ℕ) : ℕ → ℕ
  | 0 => M
  | _ + 1 => N

/-- The fewest keys of a node that is not the root. -/
def fewest (N M : ℕ) : ℕ → ℕ
  | 0 => M / 2
  | _ + 1 => (N + 1) / 2 - 1

/-- **Every separator** is the least key stored in the subtree to its right, live or tombstoned, and
above all keys to its left. -/
def Separated [LT K] : (d : ℕ) → Node K V d → Prop
  | 0, _ => True
  | d + 1, inner =>
    let n : InnerNode K (Node K V d) := inner
    ∀ l s c r, n.rest = l ++ (s, c) :: r →
      (contents d c).head?.map Prod.fst = some s ∧ ∀ e ∈ Spine.flatten (contents d) n.first l, e.1 < s

end Node

/-- **The shape of a B+ tree.** -/
structure BPlusTree.Shaped [LT K] (N M : ℕ) (t : BPlusTree K V) : Prop where
  /-- All leaves are as far from the root. No other tree can be built: the type of a node has its depth. -/
  depth : ∀ l ∈ Node.leaves t.depth t.root, l.1 = t.depth
  /-- The keys of every node increase. -/
  increasing : Node.All (fun d node => (Node.keys d node).Pairwise (· < ·)) t.depth t.root
  /-- The keys increase from leaf to leaf, so that no key is in two. -/
  stored : ((Node.leaves t.depth t.root).flatMap fun l => Node.keys 0 l.2).Pairwise (· < ·)
  separated : Node.All Node.Separated t.depth t.root
  size : Node.All (fun d node => (Node.keys d node).length ≤ Node.most N M d) t.depth t.root
  /-- Only the root may be filled less. -/
  filled : Node.Below (fun d node => Node.fewest N M d ≤ (Node.keys d node).length) t.depth t.root
  height : t.depth ≤
    Nat.log ((N + 1) / 2) ((Node.leaves t.depth t.root).flatMap fun l => Node.keys 0 l.2).length + 1

namespace Node

variable {P : (d : ℕ) → Node K V d → Prop} {N M : ℕ}

theorem length_keys_leaf (leaf : LeafNode K V) : (keys 0 leaf : List K).length = leaf.numKeys :=
  (List.length_map _).trans leaf.length_entries

theorem length_keys_inner {d : ℕ} (inner : InnerNode K (Node K V d)) :
    (keys (d + 1) inner : List K).length = inner.rest.length := List.length_map _

/-- The leaves hold what the node holds. -/
theorem flatMap_leaves (d : ℕ) (node : Node K V d) :
    ((leaves d node).flatMap fun l => keys 0 l.2) = (contents d node).map Prod.fst := by
  induction d with
  | zero => exact List.append_nil _
  | succ d ih =>
    have hchild : ∀ c : Node K V d, (((leaves d c).map fun l => (l.1 + 1, l.2)).flatMap fun l => keys 0 l.2) =
        (contents d c).map Prod.fst := fun c => by
      rw [List.flatMap_map]
      exact ih c
    change (((node.first :: node.rest.map Prod.snd).flatMap fun c => (leaves d c).map fun l =>
      (l.1 + 1, l.2)).flatMap fun l => keys 0 l.2) = (Spine.flatten (contents d) node.first node.rest).map Prod.fst
    simp only [List.flatMap_assoc, hchild]
    rw [List.flatMap_cons, Spine.flatten, List.map_append, List.flatMap_map, List.map_flatMap]

theorem leaves_depth (d : ℕ) (node : Node K V d) : ∀ l ∈ leaves d node, l.1 = d := by
  induction d with
  | zero => exact fun l hl => congrArg Prod.fst (List.mem_singleton.mp hl)
  | succ d ih =>
    intro l hl
    obtain ⟨c, -, hl⟩ := List.mem_flatMap.mp hl
    obtain ⟨l', hl', rfl⟩ := List.mem_map.mp hl
    exact congrArg (· + 1) (ih c l' hl')

variable [LinearOrder K] [Zero K]

/-- **What holds of every well-formed node** holds of all nodes below one. -/
theorem all_of_wellFormed
    (hP : ∀ (d : ℕ) (lo : WithBot K) (node : Node K V d) (hi : WithTop K), node.WellFormed N M d false lo hi → P d node)
    (d : ℕ) {lo : WithBot K} {node : Node K V d} {hi : WithTop K} (h : node.WellFormed N M d false lo hi) :
    All P d node := by
  induction d generalizing lo hi with
  | zero => exact hP 0 lo node hi h
  | succ d ih =>
    refine ⟨hP (d + 1) lo node hi h, fun c hc => ?_⟩
    obtain ⟨a, b, hc⟩ := h.2.2.of_mem hc
    exact ih hc

theorem below_of_wellFormed
    (hP : ∀ (d : ℕ) (lo : WithBot K) (node : Node K V d) (hi : WithTop K), node.WellFormed N M d false lo hi → P d node)
    {d : ℕ} {root : Bool} {lo : WithBot K} {node : Node K V d} {hi : WithTop K}
    (h : node.WellFormed N M d root lo hi) : Below P d node := by
  cases d with
  | zero => trivial
  | succ d =>
    intro c hc
    obtain ⟨a, b, hc⟩ := h.2.2.of_mem hc
    exact all_of_wellFormed hP d hc

theorem all_of_root
    (hP : ∀ (d : ℕ) (root : Bool) (lo : WithBot K) (node : Node K V d) (hi : WithTop K),
      node.WellFormed N M d root lo hi → P d node)
    {d : ℕ} {root : Bool} {lo : WithBot K} {node : Node K V d} {hi : WithTop K}
    (h : node.WellFormed N M d root lo hi) : All P d node := by
  have hbelow := below_of_wellFormed (fun d lo node hi hn => hP d false lo node hi hn) h
  cases d with
  | zero => exact hP 0 root lo node hi h
  | succ d => exact ⟨hP (d + 1) root lo node hi h, hbelow⟩

/-! ### What a node between two bounds is -/

variable {d : ℕ} {root : Bool} {lo : WithBot K} {node : Node K V d} {hi : WithTop K}

theorem keys_increasing (h : node.WellFormed N M d root lo hi) : (keys d node).Pairwise (· < ·) := by
  cases d with
  | zero => exact List.pairwise_map.mpr (LeafNode.WellFormed.sorted h)
  | succ d => exact List.pairwise_map.mpr (Chain.pairwise (separates d) h.2.2)

theorem keys_length_le (h : node.WellFormed N M d root lo hi) : (keys d node).length ≤ most N M d := by
  cases d with
  | zero => exact (length_keys_leaf node).trans_le (LeafNode.WellFormed.size h)
  | succ d => exact (length_keys_inner node).trans_le h.1

theorem fewest_le (h : node.WellFormed N M d false lo hi) : fewest N M d ≤ (keys d node).length := by
  cases d with
  | zero => exact (LeafNode.WellFormed.filled h rfl).trans_eq (length_keys_leaf node).symm
  | succ d => exact h.2.1.trans_eq (length_keys_inner node).symm

/-- The least key of a node is its lower bound. -/
theorem head_contents {s : K} (h : node.WellFormed N M d root s hi) : (contents d node).head?.map Prod.fst = some s := by
  induction d generalizing root hi with
  | zero => exact LeafNode.WellFormed.least h s rfl
  | succ d ih =>
    obtain ⟨b, hb⟩ := h.2.2.first
    have hhead := ih hb
    obtain ⟨e, he, -⟩ := Option.map_eq_some_iff.mp hhead
    rw [contents, Spine.flatten, List.head?_append, he, Option.some_or, ← he]
    exact hhead

theorem separated (h : node.WellFormed N M d root lo hi) : Separated d node := by
  cases d with
  | zero => trivial
  | succ d =>
    intro l s c r hrest
    have hchain := h.2.2
    rw [hrest, Chain.append] at hchain
    obtain ⟨b, hright⟩ := hchain.2.first
    exact ⟨head_contents hright, fun e he =>
      WithTop.coe_lt_coe.mp (Chain.within (separates d) (bounded d) hchain.1 e he).2⟩

/-! ### The height -/

/-- **What a node holds grows with its height.** -/
theorem pow_le_length (d : ℕ) {lo : WithBot K} {node : Node K V d} {hi : WithTop K}
    (h : node.WellFormed N M d false lo hi) : ((N + 1) / 2) ^ d * (M / 2) ≤ (contents d node).length := by
  induction d generalizing lo hi with
  | zero =>
    rw [Nat.pow_zero, Nat.one_mul]
    exact (LeafNode.WellFormed.filled h rfl).trans_eq (LeafNode.length_entries node).symm
  | succ d ih =>
    obtain ⟨-, hfilled, hchain⟩ := h
    have hchildren : (N + 1) / 2 ≤ node.rest.length + 1 := by
      rw [if_neg Bool.false_ne_true] at hfilled
      omega
    calc ((N + 1) / 2) ^ (d + 1) * (M / 2) = (N + 1) / 2 * (((N + 1) / 2) ^ d * (M / 2)) := by
          rw [Nat.pow_succ', Nat.mul_assoc]
      _ ≤ (node.rest.length + 1) * (((N + 1) / 2) ^ d * (M / 2)) := Nat.mul_le_mul_right _ hchildren
      _ ≤ (contents (d + 1) node).length := Spine.le_length_flatten _ _ fun c hc => by
          obtain ⟨a, b, hc⟩ := hchain.of_mem hc
          exact ih hc

/-- **The height of a tree** is at most a logarithm of the number of its keys. -/
theorem height_le (hN : 2 < N) (hM : 1 < M) (h : node.WellFormed N M d root lo hi) :
    d ≤ Nat.log ((N + 1) / 2) (contents d node).length + 1 := by
  cases d with
  | zero => exact Nat.zero_le _
  | succ d =>
    obtain ⟨b, hfirst⟩ := h.2.2.first
    have hle : ((N + 1) / 2) ^ d ≤ (contents (d + 1) node).length :=
      calc ((N + 1) / 2) ^ d ≤ ((N + 1) / 2) ^ d * (M / 2) := Nat.le_mul_of_pos_right _ (by omega)
        _ ≤ (contents d node.first).length := pow_le_length d hfirst
        _ ≤ (contents (d + 1) node).length := by
          rw [contents, Spine.flatten, List.length_append]
          exact Nat.le_add_right _ _
    exact Nat.succ_le_succ (Nat.le_log_of_pow_le (by omega) hle)

end Node

variable [LinearOrder K] [Zero K] {N M : ℕ}

/-- **A well-formed tree has its shape.** -/
theorem BPlusTree.WellFormed.shaped (hN : 2 < N) (hM : 1 < M) {t : BPlusTree K V} (h : t.WellFormed N M) :
    t.Shaped N M where
  depth := Node.leaves_depth t.depth t.root
  increasing := Node.all_of_root (fun _ _ _ _ _ hn => Node.keys_increasing hn) h
  stored := by
    rw [Node.flatMap_leaves]
    exact List.pairwise_map.mpr (Node.sorted t.depth h)
  separated := Node.all_of_root (fun _ _ _ _ _ hn => Node.separated hn) h
  size := Node.all_of_root (fun _ _ _ _ _ hn => Node.keys_length_le hn) h
  filled := Node.below_of_wellFormed (fun _ _ _ _ hn => Node.fewest_le hn) h
  height := by
    rw [Node.flatMap_leaves, List.length_map]
    exact Node.height_le hN hM h

namespace TreeOp

/-- **The tree keeps its shape**: no assertion fails in a run of insertions of positive keys and
deletions of live ones, and it leaves a tree of the right shape, which stores the keys that were inserted. -/
theorem tree_shaped (hN : 2 < N) (hM : 1 < M) {ops : List (TreeOp K V)} (hdel : Run.Each Allowed ops)
    (hpos : ∀ key v, insert key v ∈ ops → 0 < key) :
    ∃ t, tree N M ops = some t ∧ t.Shaped N M ∧
      ∀ key, key ∈ ((Node.leaves t.depth t.root).flatMap fun l => Node.keys 0 l.2) ↔ ∃ v, insert key v ∈ ops := by
  obtain ⟨t, ht, hholds⟩ := holds_of_kept hN hM hdel (kept_of_pos hpos)
  refine ⟨t, ht, hholds.wellFormed.shaped hN hM, fun key => ?_⟩
  rw [← hholds.storedIff, Node.flatMap_leaves]
  exact Assoc.mem_keys_iff

/-- Insertions in descending order, an overwritten key and two deletions, in a tree of height two. -/
theorem tree_shaped_small :
    ∃ t, tree 3 2 ((List.range 9).map (fun i => insert (9 - i) i) ++
        [insert 4 7, del 9, del 1]) = some t ∧ t.Shaped 3 2 ∧
      ∀ key, key ∈ ((Node.leaves t.depth t.root).flatMap fun l => Node.keys 0 l.2) ↔
        ∃ v, insert key v ∈ (List.range 9).map (fun i => insert (9 - i) i) ++ [insert 4 7, del 9, del 1] :=
  tree_shaped (by decide) (by decide) (by decide) fun key v hv => by
    have hkeys : ∀ op ∈ (List.range 9).map (fun i => insert (9 - i) i) ++
      [insert 4 7, del 9, del 1], 0 < op.key := by decide
    exact hkeys _ hv

end TreeOp

end TpccBench
