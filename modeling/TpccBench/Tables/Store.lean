import TpccBench.Lib.Journal
import TpccBench.Tables.Model

/-!
# The tables as a store

What an operation can tell of the tables is less than the tables are: a tree shows what it
finds and not its shape or its tombstones, a memory shows its rows and the address it hands
out next. So the tables are seen as a store of rows with indexes over them
(`TpccBench.Tables.store`), and the rest (`TpccBench.Tables.rest`): the items, the customers in
name order, the history, and the next addresses.

This module describes each operation on the tables by what it does to the two. In
particular the `make*Key` functions say how a row is linked (`TpccBench.schema`), an
insertion links its row everywhere and an erasure cuts all links of it.
-/

namespace TpccBench

variable {F : Type}

/-- The indexes over the rows. -/
inductive Index
  | tree (name : TreeName)
  | neworders
  deriving DecidableEq

/-- The rows that an index leads to. -/
def Index.kind : Index → Kind
  | tree .warehouses => .warehouse
  | tree .stock => .stock
  | tree .districts => .district
  | tree .customers => .customer
  | tree .orders => .order
  | tree .ordersByCustomer => .order
  | tree .orderlines => .orderLine
  | neworders => .newOrder

/-- The keys a row is stored under. -/
def rowLinks : (k : Kind) → Row F k → Option (List (Index × ℤ))
  | .warehouse, w => some [(.tree .warehouses, w.wId)]
  | .district, d => (makeDistrictKey .checked d.dWId d.dId).map fun key => [(.tree .districts, key)]
  | .stock, s => (makeStockKey .checked s.sWId s.sIId).map fun key => [(.tree .stock, key)]
  | .customer, c =>
    (makeCustomerKey .checked c.cWId c.cDId c.cId).map fun key => [(.tree .customers, key)]
  | .order, o =>
    (makeOrderKey .checked o.oWId o.oDId o.oId).bind fun primary =>
      (makeOrderByCustomerKey .checked o.oWId o.oDId o.oCId o.oId).map fun secondary =>
        [(.tree .orders, primary), (.tree .ordersByCustomer, secondary)]
  | .orderLine, ol =>
    (makeOrderLineKey .checked ol.olWId ol.olDId ol.olOId ol.olNumber).map fun key =>
      [(.tree .orderlines, key)]
  | .newOrder, no =>
    (makeNewOrderKey .checked no.noWId no.noDId no.noOId).map fun key => [(.neworders, key)]
  | .history, _ => some []

theorem kind_of_rowLinks {k : Kind} {r : Row F k} {ls : List (Index × ℤ)} {l : Index × ℤ}
    (h : rowLinks k r = some ls) (hl : l ∈ ls) : l.1.kind = k := by
  cases k with
  | warehouse =>
    obtain rfl := Option.some.inj h
    rw [List.mem_singleton.mp hl]
    rfl
  | history =>
    obtain rfl := Option.some.inj h
    exact absurd hl List.not_mem_nil
  | order =>
    obtain ⟨primary, -, h⟩ := Option.bind_eq_some_iff.mp h
    obtain ⟨secondary, -, rfl⟩ := Option.map_eq_some_iff.mp h
    rcases List.mem_pair.mp hl with rfl | rfl <;> rfl
  | district | stock | customer | orderLine | newOrder =>
    obtain ⟨key, -, rfl⟩ := Option.map_eq_some_iff.mp h
    rw [List.mem_singleton.mp hl]
    rfl

/-- How rows are linked. -/
def schema (F : Type) : Schema Kind (Row F) Index ℤ where
  links := rowLinks
  kind := Index.kind
  kind_of_links := kind_of_rowLinks

/-- The rest of the tables. -/
structure Rest (F : Type) where
  items : List (Item F)
  customersByName : List Ptr
  history : List Ptr
  next : Kind → ℕ

/-- An address was handed out. -/
def Rest.bump (r : Rest F) (k : Kind) : Rest F :=
  { r with next := Function.update r.next k (r.next k + 1) }

theorem Rest.next_le_bump (r : Rest F) (k k' : Kind) : r.next k' ≤ (r.bump k).next k' := by
  by_cases hk : k' = k
  · subst hk
    simp [bump]
  · simp [bump, hk]

namespace Tables

/-- The rows and the indexes. -/
def store (t : Tables F) : Store Kind (Row F) Index ℤ where
  cell := t.cell
  index
    | .tree n, key => (t.tree n).find key
    | .neworders, key => t.neworders.find key

def rest (t : Tables F) : Rest F where
  items := t.items
  customersByName := t.customersByName
  history := t.history
  next k := (t.memory k).next

variable (t : Tables F)

theorem index_tree (n : TreeName) (key : ℤ) : t.store.index (.tree n) key = (t.tree n).find key :=
  rfl

theorem index_neworders (key : ℤ) : t.store.index .neworders key = t.neworders.find key := rfl

theorem cell_next (k : Kind) : t.store.cell k (t.rest.next k) = none := Memory.cell_next

theorem store_setMemory (k : Kind) (m : Memory (Row F k)) (p : ℕ) (r : Option (Row F k))
    (h : m.cell = Function.update (t.memory k).cell p r) :
    (t.setMemory k m).store = t.store.setCell k p r := by
  refine Store.ext (funext fun k' => ?_) rfl
  by_cases hk : k' = k
  · subst hk
    simp only [store, Store.setCell, setMemory, Function.update_self]
    refine funext fun q => ?_
    simp only [cell, Function.update_self, h]
    rfl
  · simp only [store, Store.setCell, setMemory, Function.update_of_ne hk]
    refine funext fun q => ?_
    simp only [cell, Function.update_of_ne hk]

theorem rest_setMemory (k : Kind) (m : Memory (Row F k)) :
    (t.setMemory k m).rest = { t.rest with next := Function.update t.rest.next k m.next } := by
  simp only [rest, setMemory, Rest.mk.injEq, true_and]
  refine funext fun k' => ?_
  by_cases hk : k' = k
  · subst hk
    simp
  · simp [hk]

theorem store_setTree (n : TreeName) (tree : Tree) (key : ℤ) (p : Option Ptr)
    (h : ∀ k, tree.find k = if k = key then p else (t.tree n).find k) :
    (t.setTree n tree).store = t.store.setIndex [(.tree n, key)] p := by
  refine Store.ext rfl (funext fun i => funext fun k => ?_)
  simp only [store, Store.setIndex, setTree, List.mem_singleton]
  cases i with
  | neworders => simp
  | tree n' =>
    by_cases hn : n' = n
    · subst hn
      simp [h]
    · simp [hn]

end Tables

namespace Op

open Prog

variable (t : Tables F)

/-! ### Rows in memory -/

theorem deref_apply (k : Kind) (p : Ptr) :
    deref k (some p) t = (t.store.cell k p).map fun r => (r, t) := rfl

theorem assign_of_live {k : Kind} {p : Ptr} (h : (t.store.cell k p).isSome) (r : Row F k) :
    ∃ t', assign k (some p) r t = some ((), t') ∧ t'.store = t.store.setCell k p (some r) ∧
      t'.rest = t.rest := by
  obtain ⟨m, hm, hcell, hnext⟩ := Memory.write_eq_some (m := t.memory k) (x := r) h
  refine ⟨t.setMemory k m, by rw [assign, Option.bind_some, hm]; rfl,
    t.store_setMemory k m p (some r) hcell, ?_⟩
  rw [t.rest_setMemory, hnext]
  exact congrArg (fun n => { t.rest with next := n }) (Function.update_eq_self k t.rest.next)

theorem assign_of_dead {k : Kind} {p : Ptr} (h : t.store.cell k p = none) (r : Row F k) :
    assign k (some p) r t = none := by
  rw [assign, Option.bind_some, Memory.write_eq_none h]
  rfl

theorem new_apply (k : Kind) (r : Row F k) :
    ∃ t', new k r t = some (t.rest.next k, t') ∧
      t'.store = t.store.setCell k (t.rest.next k) (some r) ∧ t'.rest = t.rest.bump k ∧
      t'.tree = t.tree ∧ t'.neworders = t.neworders := by
  refine ⟨_, rfl, t.store_setMemory k _ _ (some r) rfl, ?_, rfl, rfl⟩
  rw [t.rest_setMemory]
  rfl

theorem delete_of_live {k : Kind} {p : Ptr} (h : (t.store.cell k p).isSome) :
    ∃ t', delete k p t = some ((), t') ∧ t'.store = t.store.setCell k p none ∧
      t'.rest = t.rest := by
  obtain ⟨m, hm, hcell, hnext⟩ := Memory.free_eq_some (m := t.memory k) h
  refine ⟨t.setMemory k m, by rw [delete, hm]; rfl, t.store_setMemory k m p none hcell, ?_⟩
  rw [t.rest_setMemory, hnext]
  exact congrArg (fun n => { t.rest with next := n }) (Function.update_eq_self k t.rest.next)

theorem delete_of_dead {k : Kind} {p : Ptr} (h : t.store.cell k p = none) :
    delete (F := F) k p t = none := by
  rw [delete, Memory.free_eq_none h]
  rfl

/-! ### The templates -/

theorem insertIn_apply {n : TreeName} {key : ℤ} (hkey : key ≠ 0) (p : Ptr) :
    ∃ t', insertIn n key p t = some ((), t') ∧
      t'.store = t.store.setIndex [(.tree n, key)] (some p) ∧ t'.rest = t.rest :=
  ⟨_, rfl, t.store_setTree n _ key (some p) (Tree.find_insert hkey p), rfl⟩

theorem erase_of_found {n : TreeName} {key : ℤ} {p : Ptr}
    (h : t.store.index (.tree n) key = some p) :
    ∃ t', erase n key p t = some ((), t') ∧
      t'.store = t.store.setIndex [(.tree n, key)] none ∧ t'.rest = t.rest := by
  have hfind : (t.tree n).find key = some p := h
  refine ⟨_, dif_pos hfind, ?_, rfl⟩
  exact t.store_setTree n _ key none (Tree.find_del (by simp [hfind])).2

theorem erase_of_not_found {n : TreeName} {key : ℤ} {p : Ptr}
    (h : t.store.index (.tree n) key ≠ some p) : erase n key p t = none :=
  dif_neg h

/-! ### Insertions

Each of them allocates its row and links it everywhere, and fails if it cannot be linked
or something is there. -/

/-- The operation allocates the row and links it, if there is nothing where it would be
linked, and fails otherwise. -/
def Inserts (x : Op F Ptr) (k : Kind) (r : Row F k) : Prop :=
  ∀ t : Tables F,
    (∃ ls t', rowLinks k r = some ls ∧ (∀ l ∈ ls, t.store.index l.1 l.2 = none) ∧
      x t = some (t.rest.next k, t') ∧
      t'.store = (t.store.setCell k (t.rest.next k) (some r)).setIndex ls (some (t.rest.next k)) ∧
      t'.rest = t.rest.bump k) ∨
    x t = none ∧
      ∀ ls, rowLinks k r = some ls → ∃ l ∈ ls, t.store.index l.1 l.2 ≠ none

theorem insert_of_vacant {n : TreeName} {key : ℤ} (hkey : key ≠ 0) (k : Kind) (r : Row F k)
    (h : t.store.index (.tree n) key = none) :
    ∃ t', insert n k key r t = some (t.rest.next k, t') ∧
      t'.store = (t.store.setCell k (t.rest.next k) (some r)).setIndex [(.tree n, key)]
        (some (t.rest.next k)) ∧
      t'.rest = t.rest.bump k := by
  obtain ⟨t₁, hnew, hstore, hrest, -, -⟩ := new_apply t k r
  obtain ⟨t₂, hins, hstore₂, hrest₂⟩ := insertIn_apply t₁ (n := n) hkey (t.rest.next k)
  refine ⟨t₂, ?_, hstore₂.trans (by rw [hstore]), hrest₂.trans hrest⟩
  have hfind : findIn n key t = some (none, t) := by
    rw [findIn, ← t.index_tree, h]
  simp only [insert, bind_apply, hfind, Option.bind_some, assert, if_true, hnew, hins, pure_apply]

theorem insert_of_occupied {n : TreeName} {key : ℤ} (k : Kind) (r : Row F k)
    (h : t.store.index (.tree n) key ≠ none) : insert n k key r t = none := by
  have hfind : findIn n key t = some ((t.tree n).find key, t) := rfl
  have h : ¬(t.tree n).find key = none := h
  simp only [insert, bind_apply, hfind, Option.bind_some, assert, if_neg h, Option.bind_none]

/-- The insertion of a row that is linked in one tree. -/
theorem insertKeyed_inserts {n : TreeName} {k : Kind} {r : Row F k} {key? : Option ℤ}
    (hne : ∀ key, key? = some key → key ≠ 0)
    (hl : rowLinks k r = key?.map fun key => [(.tree n, key)]) :
    Inserts (liftM key? >>= fun key => insert n k key r) k r := by
  intro t
  cases key? with
  | none =>
    refine Or.inr ⟨?_, fun ls hls => ?_⟩
    · rw [bind_apply, lift_apply, Option.map_none, Option.bind_none]
    · simp [hl] at hls
  | some key =>
    rw [bind_apply, lift_apply, Option.map_some, Option.bind_some]
    by_cases hidx : t.store.index (.tree n) key = none
    · obtain ⟨t', hins, hstore, hrest⟩ := insert_of_vacant t (hne key rfl) k r hidx
      exact Or.inl ⟨_, t', hl, by simpa using hidx, hins, hstore, hrest⟩
    · refine Or.inr ⟨insert_of_occupied t k r hidx, fun ls hls => ?_⟩
      obtain rfl := Option.some.inj (hl.symm.trans hls)
      exact ⟨_, List.mem_singleton_self _, hidx⟩

theorem insertOrderLine_inserts (ol : OrderLine F) : Inserts (insertOrderLine ol) .orderLine ol :=
  insertKeyed_inserts (fun _ => makeOrderLineKey_ne_zero) rfl

theorem insertOrder_inserts (o : Order) : Inserts (F := F) (insertOrder o) .order o := by
  intro t
  cases hprim : makeOrderKey .checked o.oWId o.oDId o.oId with
  | none =>
    refine Or.inr ⟨?_, fun ls hls => ?_⟩
    · simp only [insertOrder, hprim, bind_apply, lift_apply, Option.map_none, Option.bind_none]
    · simp [rowLinks, hprim] at hls
  | some primary =>
    by_cases hidx : t.store.index (.tree .orders) primary = none
    · obtain ⟨t₁, hins, hstore, hrest⟩ :=
        insert_of_vacant t (makeOrderKey_ne_zero hprim) .order o hidx
      cases hsec : makeOrderByCustomerKey .checked o.oWId o.oDId o.oCId o.oId with
      | none =>
        refine Or.inr ⟨?_, fun ls hls => ?_⟩
        · simp only [insertOrder, hprim, hsec, bind_apply, lift_apply, Option.map_some, hins,
            Option.bind_some, Option.map_none, Option.bind_none]
        · simp [rowLinks, hsec] at hls
      | some secondary =>
        have hlinks : rowLinks (F := F) .order o =
            some [(.tree .orders, primary), (.tree .ordersByCustomer, secondary)] := by
          simp [rowLinks, hprim, hsec]
        -- the first insertion does not touch the second index
        have hsame : (t₁.tree .ordersByCustomer).find secondary =
            t.store.index (.tree .ordersByCustomer) secondary := by
          rw [← t₁.index_tree, hstore]
          exact (Store.setIndex_index _ _ _ (Index.tree .ordersByCustomer, secondary)).trans
            (if_neg (by simp))
        have hfind : findIn .ordersByCustomer secondary t₁ =
            some (t.store.index (.tree .ordersByCustomer) secondary, t₁) := by rw [findIn, hsame]
        by_cases hidx' : t.store.index (.tree .ordersByCustomer) secondary = none
        · obtain ⟨t₂, hins₂, hstore₂, hrest₂⟩ := insertIn_apply t₁ (n := .ordersByCustomer)
            (makeOrderByCustomerKey_ne_zero hsec) (t.rest.next .order)
          refine Or.inl ⟨_, t₂, hlinks, by simp [hidx, hidx'], ?_, ?_, hrest₂.trans hrest⟩
          · simp only [insertOrder, hprim, hsec, bind_apply, lift_apply, Option.map_some, hins,
              Option.bind_some, hfind, hidx', assert, if_true, hins₂, pure_apply]
          · rw [hstore₂, hstore, Store.setIndex_setIndex]
            rfl
        · refine Or.inr ⟨?_, fun ls hls => ?_⟩
          · simp only [insertOrder, hprim, hsec, bind_apply, lift_apply, Option.map_some, hins,
              Option.bind_some, hfind, assert, if_neg hidx', Option.bind_none]
          · obtain rfl := Option.some.inj (hlinks.symm.trans hls)
            exact ⟨_, List.mem_cons_of_mem _ (List.mem_singleton_self _), hidx'⟩
    · refine Or.inr ⟨?_, fun ls hls => ?_⟩
      · simp only [insertOrder, hprim, bind_apply, lift_apply, Option.map_some, Option.bind_some,
          insert_of_occupied t .order o hidx, Option.bind_none]
      · obtain ⟨primary', hp, hls⟩ := Option.bind_eq_some_iff.mp hls
        obtain rfl := Option.some.inj (hprim.symm.trans hp)
        obtain ⟨secondary, -, rfl⟩ := Option.map_eq_some_iff.mp hls
        exact ⟨_, List.mem_cons_self, hidx⟩

/-! ### New orders and history -/

/-- `neworders_.insert`, `neworders_.erase`. -/
theorem store_insertNewOrder (key : ℤ) (p : Ptr) :
    ({ t with neworders := t.neworders.insert key p } : Tables F).store =
      t.store.setIndex [(.neworders, key)] (some p) := by
  refine Store.ext rfl (funext fun i => funext fun k => ?_)
  cases i with
  | tree n => simp [Tables.store, Store.setIndex]
  | neworders => simp [Tables.store, Store.setIndex, OrderedMap.find_insert]

theorem unlinkNewOrder_apply (key : ℤ) :
    ∃ t', unlinkNewOrder key t = some ((), t') ∧
      t'.store = t.store.setIndex [(.neworders, key)] none ∧ t'.rest = t.rest := by
  refine ⟨_, rfl, ?_, rfl⟩
  refine Store.ext rfl (funext fun i => funext fun k => ?_)
  cases i with
  | tree n => simp [Tables.store, Store.setIndex]
  | neworders => simp [Tables.store, Store.setIndex, OrderedMap.find_erase]

/-- **Linking a new-order row again** is what linking it in the store is. -/
theorem insertNewOrderObject_of_relink {p : Ptr} {s' : Store Kind (Row F) Index ℤ}
    (h : t.store.relink (schema F) (.newOrder, p) = some s') :
    ∃ t', insertNewOrderObject p t = some ((), t') ∧ t'.store = s' ∧ t'.rest = t.rest := by
  obtain ⟨no, hno, h⟩ := Option.bind_eq_some_iff.mp h
  obtain ⟨ls, hls, h⟩ := Option.bind_eq_some_iff.mp h
  obtain ⟨key, hkey, rfl⟩ := Option.map_eq_some_iff.mp hls
  have hnone : t.neworders.find key = none := by
    by_contra hne
    rw [guard, if_neg (by simpa [Tables.index_neworders] using hne)] at h
    exact absurd h (by simp)
  rw [guard, if_pos (by simpa [Tables.index_neworders] using hnone)] at h
  refine ⟨{ t with neworders := t.neworders.insert key p }, ?_, ?_, rfl⟩
  · have hread : deref .newOrder (some p) t = some (no, t) := by
      rw [deref_apply, hno, Option.map_some]
    simp only [insertNewOrderObject, bind_apply, hread, Option.bind_some, hkey, lift_apply,
      Option.map_some, if_pos hnone]
  · exact (store_insertNewOrder t key p).trans (Option.some.inj h)

theorem insertNewOrder_inserts (w d o : ℤ) :
    Inserts (F := F) (insertNewOrder w d o) .newOrder ⟨w, d, o⟩ := by
  intro t
  obtain ⟨t₁, hnew, hstore, hrest, -, hmap⟩ := new_apply t .newOrder (⟨w, d, o⟩ : NewOrder)
  have hread : deref .newOrder (some (t.rest.next .newOrder)) t₁ = some (⟨w, d, o⟩, t₁) := by
    rw [deref_apply, hstore, Store.setCell_cell_same, Option.map_some]
  cases hkey : makeNewOrderKey .checked w d o with
  | none =>
    refine Or.inr ⟨?_, fun ls hls => ?_⟩
    · simp only [insertNewOrder, insertNewOrderObject, bind_apply, hnew, Option.bind_some, hread,
        hkey, lift_apply, Option.map_none, Option.bind_none]
    · simp [rowLinks, hkey] at hls
  | some key =>
    have hlinks : rowLinks (F := F) .newOrder ⟨w, d, o⟩ = some [(.neworders, key)] := by
      simp [rowLinks, hkey]
    by_cases hidx : t.neworders.find key = none
    · refine Or.inl ⟨_, { t₁ with neworders := t₁.neworders.insert key (t.rest.next .newOrder) },
        hlinks, by simpa [Tables.index_neworders] using hidx, ?_, ?_, hrest⟩
      · simp only [insertNewOrder, insertNewOrderObject, bind_apply, hnew, Option.bind_some, hread,
          hkey, lift_apply, Option.map_some, hmap, if_pos hidx, pure_apply]
      · rw [store_insertNewOrder, hstore]
    · refine Or.inr ⟨?_, fun ls hls => ?_⟩
      · simp only [insertNewOrder, insertNewOrderObject, bind_apply, hnew, Option.bind_some, hread,
          hkey, lift_apply, Option.map_some, hmap, if_neg hidx, Option.bind_none]
      · obtain rfl := Option.some.inj (hlinks.symm.trans hls)
        exact ⟨_, List.mem_singleton_self _, hidx⟩

theorem insertHistory_apply (h : History F) :
    ∃ t', insertHistory h t = some (t.rest.next .history, t') ∧
      t'.store = t.store.setCell .history (t.rest.next .history) (some h) ∧
      t'.rest = { t.rest.bump .history with
        history := t.rest.history ++ [t.rest.next .history] } := by
  obtain ⟨t₁, hnew, hstore, hrest, -, -⟩ := new_apply t .history h
  refine ⟨{ t₁ with history := t₁.history ++ [t.rest.next .history] }, ?_, hstore, ?_⟩
  · simp only [insertHistory, bind_apply, hnew, Option.bind_some]
  · have hitems : t₁.items = t.items := congrArg Rest.items hrest
    have hname : t₁.customersByName = t.customersByName := congrArg Rest.customersByName hrest
    have hhist : t₁.history = t.history := congrArg Rest.history hrest
    have hnext := congrArg Rest.next hrest
    simp only [Tables.rest, hitems, hname, hhist]
    exact congrArg (fun n => Rest.mk t.items t.customersByName _ n) hnext

/-! ### Erasures -/

/-- What erasing a row of the store says of the row. -/
theorem links_of_erase {k : Kind} {p : Ptr} {s s' : Store Kind (Row F) Index ℤ}
    (h : s.erase (schema F) (k, p) = some s') :
    ∃ r ls, s.cell k p = some r ∧ rowLinks k r = some ls ∧
      (∀ l ∈ ls, s.index l.1 l.2 = some p) ∧ s' = (s.setIndex ls none).setCell k p none := by
  obtain ⟨r, hr, h⟩ := Option.bind_eq_some_iff.mp h
  obtain ⟨ls, hls, h⟩ := Option.bind_eq_some_iff.mp h
  by_cases hidx : ∀ l ∈ ls, s.index l.1 l.2 = some p
  · rw [guard, if_pos hidx] at h
    exact ⟨r, ls, hr, hls, hidx, (Option.some.inj h).symm⟩
  · rw [guard, if_neg hidx] at h
    exact absurd h (by simp)

/-- The operation erases the row as it is erased from the store. -/
def Erases (x : Op F Unit) (k : Kind) (p : Ptr) : Prop :=
  ∀ (t : Tables F) s', t.store.erase (schema F) (k, p) = some s' →
    ∃ t', x t = some ((), t') ∧ t'.store = s' ∧ t'.rest = t.rest

theorem eraseOrderLine_erases (p : Ptr) : Erases (F := F) (eraseOrderLine p) .orderLine p := by
  intro t s' h
  obtain ⟨ol, ls, hol, hls, hidx, rfl⟩ := links_of_erase h
  obtain ⟨key, hkey, rfl⟩ := Option.map_eq_some_iff.mp hls
  obtain ⟨t₁, herase, hstore₁, hrest₁⟩ :=
    erase_of_found t (n := .orderlines) (hidx _ (List.mem_singleton_self _))
  have hlive : (t₁.store.cell .orderLine p).isSome := by
    rw [hstore₁, Store.setIndex_cell, hol]
    rfl
  obtain ⟨t₂, hdel, hstore₂, hrest₂⟩ := delete_of_live t₁ hlive
  refine ⟨t₂, ?_, hstore₂.trans (by rw [hstore₁]), hrest₂.trans hrest₁⟩
  have hread : deref .orderLine (some p) t = some (ol, t) := by rw [deref_apply, hol, Option.map_some]
  simp only [eraseOrderLine, bind_apply, hread, Option.bind_some, hkey, lift_apply, Option.map_some,
    herase, hdel]

theorem eraseOrder_erases (p : Ptr) : Erases (F := F) (eraseOrder p) .order p := by
  intro t s' h
  obtain ⟨o, ls, ho, hls, hidx, rfl⟩ := links_of_erase h
  obtain ⟨primary, hprim, hls⟩ := Option.bind_eq_some_iff.mp hls
  obtain ⟨secondary, hsec, rfl⟩ := Option.map_eq_some_iff.mp hls
  obtain ⟨t₁, herase₁, hstore₁, hrest₁⟩ :=
    erase_of_found t (n := .orders) (hidx _ List.mem_cons_self)
  have hidx₂ : t₁.store.index (.tree .ordersByCustomer) secondary = some p := by
    rw [hstore₁]
    refine (Store.setIndex_index _ _ _ (Index.tree .ordersByCustomer, secondary)).trans ?_
    rw [if_neg (by simp)]
    exact hidx _ (List.mem_cons_of_mem _ (List.mem_singleton_self _))
  obtain ⟨t₂, herase₂, hstore₂, hrest₂⟩ := erase_of_found t₁ hidx₂
  have hlive : (t₂.store.cell .order p).isSome := by
    rw [hstore₂, Store.setIndex_cell, hstore₁, Store.setIndex_cell, ho]
    rfl
  obtain ⟨t₃, hdel, hstore₃, hrest₃⟩ := delete_of_live t₂ hlive
  refine ⟨t₃, ?_, ?_, hrest₃.trans (hrest₂.trans hrest₁)⟩
  · have hread : deref .order (some p) t = some (o, t) := by rw [deref_apply, ho, Option.map_some]
    simp only [eraseOrder, bind_apply, hread, Option.bind_some, hprim, hsec, lift_apply,
      Option.map_some, herase₁, herase₂, hdel]
  · rw [hstore₃, hstore₂, hstore₁, Store.setIndex_setIndex]
    rfl

theorem eraseNewOrder_erases (p : Ptr) : Erases (F := F) (eraseNewOrder p) .newOrder p := by
  intro t s' h
  obtain ⟨no, ls, hno, hls, hidx, rfl⟩ := links_of_erase h
  obtain ⟨key, hkey, rfl⟩ := Option.map_eq_some_iff.mp hls
  have hfind : t.neworders.find key = some p := hidx _ (List.mem_singleton_self _)
  obtain ⟨t₁, hunlink, hstore₁, hrest₁⟩ := unlinkNewOrder_apply t key
  have hlive : (t₁.store.cell .newOrder p).isSome := by
    rw [hstore₁, Store.setIndex_cell, hno]
    rfl
  obtain ⟨t₂, hdel, hstore₂, hrest₂⟩ := delete_of_live t₁ hlive
  refine ⟨t₂, ?_, hstore₂.trans (by rw [hstore₁]), hrest₂.trans hrest₁⟩
  have hread : deref .newOrder (some p) t = some (no, t) := by rw [deref_apply, hno, Option.map_some]
  have hget : (get : Op F (Tables F)) t = some (t, t) := rfl
  simp only [eraseNewOrder, bind_apply, hread, Option.bind_some, hkey, lift_apply, Option.map_some,
    hget, assert, if_pos hfind, hunlink, hdel]

/-- Erasing one of some last elements leaves the others the last elements. -/
theorem eraseFrom_append {p : Ptr} {l l' : List Ptr} (hnd : l'.Nodup) (hp : p ∈ l') :
    ∃ l'', eraseFrom p (l ++ l') = some (l ++ l'') ∧ l''.Perm (l'.erase p) := by
  obtain ⟨a, b, rfl⟩ := List.append_of_mem hp
  obtain ⟨-, hb, hab⟩ := List.nodup_append.mp hnd
  have hpb : p ∉ b := (List.nodup_cons.mp hb).1
  have hpa : p ∉ a := fun ha => hab p ha p List.mem_cons_self rfl
  have hidx : (l ++ (a ++ p :: b)).reverse.idxOf p = b.length := by
    have hrev : (l ++ (a ++ p :: b)).reverse = b.reverse ++ p :: (l ++ a).reverse := by simp
    rw [hrev, List.idxOf_append_of_notMem (by simpa using hpb), List.idxOf_cons_self]
    simp
  have hat : (l ++ (a ++ p :: b)).length - 1 - b.length = (l ++ a).length := by
    simp only [List.length_append, List.length_cons]
    omega
  have hset : ∀ z, (l ++ (a ++ p :: b)).set (l ++ a).length z = (l ++ a) ++ z :: b := by
    intro z
    rw [← List.append_assoc, List.set_append_right _ _ (le_refl _), Nat.sub_self, List.set_cons_zero]
  have herase : (a ++ p :: b).erase p = a ++ b := by
    rw [List.erase_append_right _ hpa, List.erase_cons_head]
  simp only [eraseFrom, hidx, hat, hset, herase]
  rw [if_pos (by simp only [List.length_append, List.length_cons]; omega)]
  rcases List.eq_nil_or_concat b with rfl | ⟨b', z, rfl⟩
  · -- the row is the last one
    refine ⟨a, ?_, by simp⟩
    rw [List.dropLast_concat]
  · -- the last one moves to where the row was
    refine ⟨a ++ z :: b', ?_, ?_⟩
    · have hlast : (l ++ (a ++ p :: (b' ++ [z]))).getLastD p = z := by
        have hends : l ++ (a ++ p :: (b' ++ [z])) = (l ++ (a ++ p :: b')) ++ [z] := by simp
        rw [hends, List.getLastD_concat]
      have hdrop : (l ++ a) ++ z :: (b' ++ [z]) = (l ++ (a ++ z :: b')) ++ [z] := by simp
      rw [List.concat_eq_append, hlast, hdrop, List.dropLast_concat]
    · rw [List.concat_eq_append]
      exact List.Perm.append_left a (List.perm_append_singleton z b').symm

/-- The last element is removed. -/
theorem eraseFrom_concat (p : Ptr) (l : List Ptr) : eraseFrom p (l ++ [p]) = some l := by
  have hidx : (l ++ [p]).reverse.idxOf p = 0 := by rw [List.reverse_concat, List.idxOf_cons_self]
  have hset : (l ++ [p]).set ((l ++ [p]).length - 1 - 0) p = l ++ [p] := by simp
  rw [eraseFrom, hidx, if_pos (by simp), List.getLastD_concat, hset, List.dropLast_concat]

/-- **`eraseHistory`**, of a row that is there. -/
theorem eraseHistory_of_live {p : Ptr} {l : List Ptr} (hfrom : eraseFrom p t.history = some l)
    (hlive : (t.store.cell .history p).isSome) :
    ∃ t', eraseHistory p t = some ((), t') ∧ t'.store = t.store.setCell .history p none ∧
      t'.rest = { t.rest with history := l } := by
  obtain ⟨t', hdel, hstore, hrest⟩ :=
    delete_of_live ({ t with history := l } : Tables F) (k := .history) (p := p) hlive
  refine ⟨t', ?_, hstore, hrest⟩
  simp only [eraseHistory, bind_apply, hfrom, Option.map_some, Option.bind_some, hdel]

theorem eraseHistory_apply {p : Ptr} {l l' : List Ptr} (hl : t.rest.history = l ++ l')
    (hnd : l'.Nodup) (hp : p ∈ l') (hlive : (t.store.cell .history p).isSome) :
    ∃ t' l'', eraseHistory p t = some ((), t') ∧ l''.Perm (l'.erase p) ∧
      t'.store = t.store.setCell .history p none ∧
      t'.rest = { t.rest with history := l ++ l'' } := by
  obtain ⟨l'', hfrom, hperm⟩ := eraseFrom_append (l := l) hnd hp
  have hl : t.history = l ++ l' := hl
  rw [← hl] at hfrom
  obtain ⟨t', hrun, hstore, hrest⟩ := eraseHistory_of_live t hfrom hlive
  exact ⟨t', l'', hrun, hperm, hstore, hrest⟩

end Op

end TpccBench
