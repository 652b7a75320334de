import TpccBench.BTree.Enumerate
import TpccBench.Tables.Queries

/-!
# The end of the tables

`~TPCCTables` frees the rows that five of the trees lead to. Each row is in one place of its tree,
since where it is is packed from its fields. So no row is freed twice, and none that the tree leads
to is left (`TpccBench.TreeOp.destructor_complete`).
-/

namespace TpccBench

open Prog

variable {F : Type} {t : Tables F} {n : TreeName}

/-- The largest `int32_t`. -/
def int32Max : ℤ := 2 ^ 31 - 1

/-- `deleteBTreeValues` of a member. The rows that are freed are not read. -/
def Op.deleteBTreeValues (n : TreeName) : Op F Unit := fun t =>
  ((t.tree n).1.deleteBTreeValues int32Max).bind fun values =>
    (values.map Prod.snd).forM (delete (Index.kind (.tree n))) t

/-- A row has one key in an index. -/
theorem key_unique_of_rowLinks {k : Kind} {r : Row F k} {ls : List (Index × ℤ)} {i : Index} {key key' : ℤ}
    (h : rowLinks k r = some ls) (hkey : (i, key) ∈ ls) (hkey' : (i, key') ∈ ls) : key = key' := by
  cases k with
  | warehouse =>
    obtain rfl := Option.some.inj h
    rw [(Prod.mk.inj (List.mem_singleton.mp hkey)).2, (Prod.mk.inj (List.mem_singleton.mp hkey')).2]
  | history =>
    obtain rfl := Option.some.inj h
    exact absurd hkey List.not_mem_nil
  | order =>
    obtain ⟨primary, -, h⟩ := Option.bind_eq_some_iff.mp h
    obtain ⟨secondary, -, rfl⟩ := Option.map_eq_some_iff.mp h
    rcases List.mem_pair.mp hkey with hk | hk <;> rcases List.mem_pair.mp hkey' with hk' | hk' <;>
      obtain ⟨rfl, rfl⟩ := Prod.mk.inj hk <;> simpa using hk'.symm
  | district | stock | customer | orderLine | newOrder =>
    obtain ⟨link, -, rfl⟩ := Option.map_eq_some_iff.mp h
    rw [(Prod.mk.inj (List.mem_singleton.mp hkey)).2, (Prod.mk.inj (List.mem_singleton.mp hkey')).2]

/-- A row is in one place of a tree. -/
theorem Tables.find_inj (h : t.store.Linked (schema F)) {key key' : ℤ} {p : Ptr}
    (hp : (t.tree n).find key = some p) (hp' : (t.tree n).find key' = some p) : key = key' := by
  obtain ⟨ls, ⟨r, hr, hls⟩, hl, -⟩ := h (.tree n, key) p hp
  obtain ⟨ls', ⟨r', hr', hls'⟩, hl', -⟩ := h (.tree n, key') p hp'
  obtain rfl := Option.some.inj (hr.symm.trans hr')
  obtain rfl := Option.some.inj (hls.symm.trans hls')
  exact key_unique_of_rowLinks hls hl hl'

/-- **Each row that a tree leads to is freed once**, and no other. -/
theorem Op.deleteBTreeValues_frees (h : t.store.Linked (schema F))
    (hmax : ∀ key p, (t.tree n).find key = some p → key < int32Max) :
    ∃ t', deleteBTreeValues n t = some ((), t') ∧ ∀ k p,
      (k = Index.kind (.tree n) ∧ t.Holds n p → t'.cell k p = none) ∧
        (¬(k = Index.kind (.tree n) ∧ t.Holds n p) → t'.cell k p = t.cell k p) := by
  have hspec := (t.tree n).1.deleteValuesFrom_spec (t.tree n).2 int32Max none
  have hs : Assoc.Sorted (Assoc.live (t.tree n).1.contents) :=
    Assoc.sorted_live (Node.sorted (t.tree n).1.depth (t.tree n).2)
  generalize hl : ((Assoc.live (t.tree n).1.contents).filter fun e => decide (e.1 < int32Max)).reverse = l
    at hspec
  have hmem : ∀ k p, (k, p) ∈ l ↔ (t.tree n).find k = some p := fun k p => by
    rw [← hl, List.mem_reverse, List.mem_filter, Tree.mem_live, and_iff_left_iff_imp]
    exact fun hp => decide_eq_true (hmax k p hp)
  have hnd : (l.map Prod.snd).Nodup := by
    refine List.Nodup.map_on (fun e he e' he' heq => ?_) ?_
    · have hp := (hmem e.1 e.2).mp he
      have hp' := (hmem e'.1 e'.2).mp he'
      rw [← heq] at hp'
      exact Prod.ext (Tables.find_inj h hp hp') heq
    · rw [← hl, List.nodup_reverse]
      exact List.Nodup.filter _ (List.Pairwise.imp (fun hlt heq => ne_of_lt hlt (congrArg Prod.fst heq)) hs)
  have hlive : ∀ p ∈ l.map Prod.snd, (t.store.cell (Index.kind (.tree n)) p).isSome := by
    intro p hp
    obtain ⟨e, he, rfl⟩ := List.mem_map.mp hp
    obtain ⟨ls, ⟨r, hr, -⟩, -, -⟩ := h (.tree n, e.1) e.2 ((hmem e.1 e.2).mp he)
    exact Option.isSome_of_eq_some hr
  obtain ⟨t', hrun, -, -, hcell⟩ := delete_all hnd hlive
  have hin : ∀ p, p ∈ l.map Prod.snd ↔ t.Holds n p := by
    intro p
    rw [List.mem_map]
    constructor
    · rintro ⟨e, he, rfl⟩
      exact ⟨e.1, (hmem e.1 e.2).mp he⟩
    · rintro ⟨key, hp⟩
      exact ⟨(key, p), (hmem key p).mpr hp, rfl⟩
  refine ⟨t', ?_, fun k p => ?_⟩
  · have hvalues : (t.tree n).1.deleteBTreeValues int32Max = some l := hspec
    rw [deleteBTreeValues, hvalues, Option.bind_some]
    exact hrun
  · have hcell : t'.cell k p = _ := hcell k p
    refine ⟨fun hp => hcell.trans (if_pos ?_), fun hp => hcell.trans (if_neg fun hl => hp ?_)⟩
    · exact ⟨hp.1, (hin p).mpr hp.2⟩
    · exact ⟨hl.1, (hin p).mp hl.2⟩

/-- **The destructor is complete**: the loop over a tree ends and yields the live values, each once
and from the last key to the first, and over a tree of the tables it frees the rows that are there. -/
theorem TreeOp.destructor_complete {K V : Type} [LinearOrder K] [Zero K] {N M : ℕ} [Money F] (hN : 2 < N)
    (hM : 1 < M) :
    (∀ {max : K} {ops : List (TreeOp K V)}, Run.Each Allowed ops → (∀ op ∈ ops, 0 < op.key) →
      (∀ op ∈ ops, op.key < max) → ∃ t l, tree N M ops = some t ∧ t.deleteBTreeValues max = some l ∧
        l.Pairwise (fun e e' => e'.1 < e.1) ∧ ∀ k v, (k, v) ∈ l ↔ liveValue ops k = some v) ∧
    ∀ {as : List (Action F)} {us : List (TPCCUndo F)} {t : Tables F} {n : TreeName},
      Run.result Action.step (Tables.empty, []) as = some (t, us) →
      (∀ key p, (t.tree n).find key = some p → key < int32Max) →
      ∃ t', Op.deleteBTreeValues n t = some ((), t') ∧ ∀ k p,
        (k = Index.kind (.tree n) ∧ t.Holds n p → t'.cell k p = none) ∧
          (¬(k = Index.kind (.tree n) ∧ t.Holds n p) → t'.cell k p = t.cell k p) :=
  ⟨fun hdel hpos hmax => deleteBTreeValues_live hN hM hdel hpos hmax,
    fun h hmax => Op.deleteBTreeValues_frees (Action.run_kept h).1 hmax⟩

/-- A tree with a tombstone, and the warehouse of the small database. -/
theorem TreeOp.destructor_complete_small :
    (∃ t l, tree 3 3 [insert (3 : ℤ) 1, insert 5 2, del 5, insert 7 4] = some t ∧
      t.deleteBTreeValues 8 = some l ∧ l.Pairwise (fun e e' => e'.1 < e.1) ∧
      ∀ k v, (k, v) ∈ l ↔ liveValue [insert (3 : ℤ) 1, insert 5 2, del 5, insert 7 4] k = some v) ∧
    ∃ s t', Run.result Action.step (Tables.empty, []) (smallDatabase.map Action.insert) = some s ∧
      Op.deleteBTreeValues .warehouses s.1 = some ((), t') ∧ ∀ k p,
        (k = .warehouse ∧ s.1.Holds .warehouses p → t'.cell k p = none) ∧
          (¬(k = .warehouse ∧ s.1.Holds .warehouses p) → t'.cell k p = s.1.cell k p) := by
  have hcomplete := destructor_complete (K := ℤ) (V := ℕ) (F := ℚ) (show 2 < 3 by decide) (show 1 < 3 by decide)
  refine ⟨hcomplete.1 (by decide) (by decide) (by decide), ?_⟩
  have hrun : ((Run.result (Action.step (F := ℚ)) (Tables.empty, []) (smallDatabase.map Action.insert)).map
      fun s => Assoc.live (s.1.tree .warehouses).1.contents) = some [(1, 0)] := by decide +kernel
  obtain ⟨s, hs, hlive⟩ := Option.map_eq_some_iff.mp hrun
  have hmax : ∀ key p, (s.1.tree .warehouses).find key = some p → key < int32Max := fun key p hp => by
    rw [← Tree.mem_live, hlive, List.mem_singleton] at hp
    rw [(Prod.mk.inj hp).1]
    decide
  obtain ⟨t', hdelete, hcell⟩ := hcomplete.2 hs hmax
  exact ⟨s, t', hs, hdelete, hcell⟩

end TpccBench
