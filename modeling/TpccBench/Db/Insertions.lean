import TpccBench.Db.Rules

/-!
# Insertions on the database

Each `insert*` function inserts its row into the database the tables show
(`TpccBench.Insertion.onDb`), and filled tables are sound. The zero key, which may be lost on
the way into its tree, is the one exception, and no warehouse has it.
-/

namespace TpccBench

open Prog

variable {F : Type} {t t' : Tables F}

namespace Db

/-- Append an item. -/
def insertItem (item : Item F) : Dx F Unit := fun db =>
  if item.iId = db.items.length + 1 then some ((), { db with items := db.items ++ [item] }) else none

theorem insertItem_eq_some {db db' : Db F} {item : Item F} {u : Unit}
    (h : insertItem item db = some (u, db')) :
    item.iId = db.items.length + 1 ∧ db' = { db with items := db.items ++ [item] } := by
  rw [insertItem] at h
  split at h
  · next hid => exact ⟨hid, (Prod.mk.inj (Option.some.inj h)).2.symm⟩
  · exact absurd h (by simp)

end Db

/-- What an insertion is on the database. -/
def Insertion.onDb : Insertion F → Dx F Unit
  | item i => Db.insertItem i
  | warehouse w => Db.insert .warehouse w
  | stock s => Db.insert .stock s
  | district d => Db.insert .district d
  | customer c => Db.insert .customer c
  | order o => Db.insert .order o
  | orderLine ol => Db.insert .orderLine ol
  | newOrder wId dId oId => Db.insert .newOrder (⟨wId, dId, oId⟩ : NewOrder)
  | history h => Db.insertHistory h

/-- An insertion whose key is not zero. -/
def Insertion.Keyed : Insertion F → Prop
  | warehouse w => w.wId ≠ 0
  | _ => True

/-- An insertion that returns nothing. -/
theorem insert_onDb (ht : t.Sound) {x : Op F Ptr} {k : Kind} {r : Row F k} (hx : Op.Inserts x k r)
    (hk : k ≠ .history) {y : Op F Unit} (hy : y = x >>= fun _ => pure ()) (h : y t = some ((), t')) :
    t'.Sound ∧ Db.insert k r t.db = some ((), t'.db) := by
  rw [hy] at h
  obtain ⟨p, t₁, hrun, hret⟩ := bind_eq_some h
  obtain rfl := (Prod.mk.inj (Option.some.inj hret)).2
  obtain ⟨hs, hlinks, hnone, hdb⟩ := ht.inserts hx hk hrun
  refine ⟨hs, ?_⟩
  rw [Db.insert, if_pos ⟨hlinks, by rw [hnone]; rfl⟩, hdb]

theorem insertItem_onDb (ht : t.Sound) {item : Item F} (h : Op.insertItem item t = some ((), t')) :
    t'.Sound ∧ Db.insertItem item t.db = some ((), t'.db) := by
  have hgrow := insertItem_grows h
  rw [Op.insertItem] at h
  split at h
  · next hid =>
    obtain rfl := (Prod.mk.inj (Option.some.inj h)).2
    have hid : item.iId = t.db.items.length + 1 := hid
    refine ⟨ht.grow hgrow rfl fun _ _ => id, ?_⟩
    rw [Db.insertItem, if_pos hid]
    rfl
  · exact absurd h (by simp)

/-- Warehouses and customers are in different trees. -/
theorem insertWarehouse_frame {w : Warehouse F} (h : Op.insertWarehouse w t = some ((), t')) :
    t'.customersByName = t.customersByName ∧
      ∀ key, t'.store.index (.tree .customers) key = t.store.index (.tree .customers) key := by
  obtain ⟨p, t₁, hins, hret⟩ := bind_eq_some h
  obtain rfl := (Prod.mk.inj (Option.some.inj hret)).2
  obtain ⟨q, t₂, hfind, hins⟩ := bind_eq_some hins
  obtain rfl := (Prod.mk.inj (Option.some.inj hfind)).2
  obtain ⟨_, t₂, hassert, hins⟩ := bind_eq_some hins
  obtain ⟨-, rfl⟩ := assert_eq_some hassert
  obtain ⟨p', t₃, hnew, hins⟩ := bind_eq_some hins
  obtain ⟨rfl, rfl⟩ := Prod.mk.inj (Option.some.inj hnew)
  obtain ⟨_, t₄, hput, hins⟩ := bind_eq_some hins
  obtain rfl := (Prod.mk.inj (Option.some.inj hput)).2
  obtain rfl := (Prod.mk.inj (Option.some.inj hins)).2
  exact ⟨rfl, fun key => rfl⟩

theorem insertWarehouse_onDb (ht : t.Sound) {w : Warehouse F}
    (h : Op.insertWarehouse w t = some ((), t')) :
    t'.Sound ∧ (w.wId ≠ 0 → Db.insert .warehouse w t.db = some ((), t'.db)) := by
  obtain ⟨hname, hidx⟩ := insertWarehouse_frame h
  refine ⟨ht.grow (insertWarehouse_grows h) hname fun key p hp => by rw [hidx, hp], fun hne => ?_⟩
  · exact (insert_onDb ht (x := do
      let key ← liftM (some w.wId)
      Op.insert .warehouses .warehouse key w) (Op.insertKeyed_inserts (by simpa using hne) rfl) (by simp)
        (by simp only [Op.insertWarehouse, bind_assoc]; rfl) h).2

theorem insertCustomer_onDb (ht : t.Sound) {c : Customer F} (h : Op.insertCustomer c t = some ((), t')) :
    t'.Sound ∧ Db.insert .customer c t.db = some ((), t'.db) := by
  have hwf := (insertCustomer_grows h).wellFormed ht.toWellFormed
  obtain ⟨x, p, t₁, l, hx, hrun, -, -, rfl⟩ := Op.insertCustomer_eq_some h
  obtain ⟨hs, hlinks, hnone, hdb⟩ := ht.inserts hx (by simp) hrun
  -- linking by name changes no index, and no row
  refine ⟨⟨hwf, fun q hq => ?_⟩, ?_⟩
  · rcases List.eq_or_mem_of_mem_insertIdx hq with rfl | hq
    · obtain ⟨ls, hls, -, -, hstore, -⟩ := hx.of_eq_some hrun
      obtain ⟨key, -, rfl⟩ := Option.map_eq_some_iff.mp hls
      refine ⟨key, ?_⟩
      have hidx : t₁.store.index (.tree .customers) key = some q := by
        rw [hstore]
        exact (Store.setIndex_index _ _ _ (Index.tree .customers, key)).trans
          (if_pos (List.mem_singleton_self _))
      exact hidx
    · exact hs.named q hq
  · have hsame : t₁.db = t.db.setRow .customer (rowId (F := F) .customer c) (some c) := hdb
    rw [Db.insert, if_pos ⟨hlinks, by rw [hnone]; rfl⟩, ← hsame]
    rfl

/-- **Filling the tables** is inserting into the database. -/
theorem Insertion.exec_onDb {i : Insertion F} (ht : t.Sound) (h : i.exec t = some ((), t')) :
    t'.Sound ∧ (i.Keyed → i.onDb t.db = some ((), t'.db)) := by
  cases i with
  | item i => exact (insertItem_onDb ht h).imp_right fun h _ => h
  | warehouse w => exact insertWarehouse_onDb ht h
  | stock s =>
    exact (insert_onDb ht (Op.insertKeyed_inserts (F := F) (k := .stock) (r := s)
      (fun _ => makeStockKey_ne_zero) rfl) (by simp) (by simp only [exec, Op.insertStock, bind_assoc])
        h).imp_right fun h _ => h
  | district d =>
    exact (insert_onDb ht (Op.insertKeyed_inserts (k := .district) (r := d)
      (fun _ => makeDistrictKey_ne_zero) rfl) (by simp) (by simp only [exec, Op.insertDistrict, bind_assoc])
        h).imp_right fun h _ => h
  | customer c => exact (insertCustomer_onDb ht h).imp_right fun h _ => h
  | order o => exact (insert_onDb ht (Op.insertOrder_inserts o) (by simp) rfl h).imp_right fun h _ => h
  | orderLine ol =>
    exact (insert_onDb ht (Op.insertOrderLine_inserts ol) (by simp) rfl h).imp_right fun h _ => h
  | newOrder wId dId oId =>
    exact (insert_onDb ht (Op.insertNewOrder_inserts wId dId oId) (by simp) rfl h).imp_right fun h _ => h
  | history r =>
    obtain ⟨p, t₁, hrun, hret⟩ := bind_eq_some h
    obtain rfl := (Prod.mk.inj (Option.some.inj hret)).2
    obtain ⟨hs, -, hdb⟩ := ht.insertHistory hrun
    refine ⟨hs, fun _ => ?_⟩
    rw [onDb, Db.insertHistory, hdb]

theorem Tables.empty_sound : (Tables.empty : Tables F).Sound where
  toWellFormed := Tables.empty_wellFormed
  named _ h := absurd h List.not_mem_nil

theorem Tables.empty_row (k : Kind) (id : RowId k) : (Tables.empty : Tables F).db.row k id = none := by
  rw [Tables.row_eq]
  cases Tables.empty.lookup k id with
  | none => rfl
  | some p => rfl

/-- **Filled tables are sound**, and show what was inserted. -/
theorem insertAll_onDb {is : List (Insertion F)} (ht : t.Sound) (h : insertAll is t = some ((), t')) :
    t'.Sound ∧ ((∀ i ∈ is, i.Keyed) → is.forM Insertion.onDb t.db = some ((), t'.db)) := by
  induction is generalizing t with
  | nil =>
    obtain rfl := (Prod.mk.inj (Option.some.inj h)).2
    exact ⟨ht, fun _ => rfl⟩
  | cons i is ih =>
    rw [insertAll, forM_cons_apply] at h
    obtain ⟨⟨_, t₁⟩, hrun, hrest⟩ := Option.bind_eq_some_iff.mp h
    obtain ⟨ht₁, hone⟩ := Insertion.exec_onDb ht hrun
    obtain ⟨ht', hall⟩ := ih ht₁ hrest
    refine ⟨ht', fun hkeyed => ?_⟩
    obtain ⟨hi, his⟩ := List.forall_mem_cons.mp hkeyed
    rw [forM_cons_apply, hone hi, Option.bind_some]
    exact hall his

/-! ### What has been inserted -/

/-- The row of a kind that is inserted. -/
def Insertion.row : (k : Kind) → Insertion F → Option (Row F k)
  | .warehouse, warehouse w => some w
  | .district, district d => some d
  | .stock, stock s => some s
  | .customer, customer c => some c
  | .order, order o => some o
  | .orderLine, orderLine ol => some ol
  | .newOrder, newOrder wId dId oId => some ⟨wId, dId, oId⟩
  | .history, history h => some h
  | _, _ => none

/-- The item that is inserted. -/
def Insertion.asItem : Insertion F → Option (Item F)
  | item i => some i
  | _ => none

/-- An insertion of a row by its ids. -/
structure Insertion.Of (i : Insertion F) (k : Kind) (r : Row F k) : Prop where
  ne_history : k ≠ .history
  onDb : i.onDb = Db.insert k r
  row : i.row k = some r
  row_of_ne (k' : Kind) : k' ≠ k → i.row k' = none
  asItem : i.asItem = none

/-- **All but items and history rows** are inserted by their ids. -/
theorem Insertion.cases_onDb (i : Insertion F) :
    (∃ item, i = .item item) ∨ (∃ h, i = .history h) ∨ ∃ k r, i.Of k r := by
  cases i with
  | item i => exact Or.inl ⟨i, rfl⟩
  | history h => exact Or.inr (Or.inl ⟨h, rfl⟩)
  | _ =>
    refine Or.inr (Or.inr ⟨_, _, by decide, rfl, rfl, fun k' hk' => ?_, rfl⟩)
    cases k' <;> first | rfl | exact absurd rfl hk'

/-- **What some insertions have added** to a database. -/
structure Db.Adds (db : Db F) (is : List (Insertion F)) (db' : Db F) : Prop where
  items : db'.items = db.items ++ is.filterMap Insertion.asItem
  history : db'.history = db.history ++ is.filterMap (Insertion.row .history)
  row {k : Kind} {id : RowId k} {r : Row F k} : k ≠ .history →
    (db'.row k id = some r ↔ db.row k id = some r ∨ rowId k r = id ∧ r ∈ is.filterMap (Insertion.row k))

theorem Db.Adds.nil (db : Db F) : db.Adds [] db := ⟨by simp, by simp, fun _ => by simp⟩

theorem Db.Adds.append {db db₁ db' : Db F} {is is' : List (Insertion F)} (h : db.Adds is db₁)
    (h' : db₁.Adds is' db') : db.Adds (is ++ is') db' where
  items := by rw [h'.items, h.items, List.append_assoc, ← List.filterMap_append]
  history := by rw [h'.history, h.history, List.append_assoc, ← List.filterMap_append]
  row hk := by rw [h'.row hk, h.row hk, or_assoc, ← and_or_left, ← List.mem_append, ← List.filterMap_append]

theorem Insertion.adds {i : Insertion F} {db db' : Db F} (h : i.onDb db = some ((), db')) : db.Adds [i] db' := by
  rcases i.cases_onDb with ⟨item, rfl⟩ | ⟨r, rfl⟩ | ⟨k, r, hi⟩
  · obtain ⟨-, rfl⟩ := Db.insertItem_eq_some h
    exact ⟨rfl, by simp [row], fun hk => by simp [row]⟩
  · obtain rfl := Db.insertHistory_eq_some h
    exact ⟨by simp [asItem], rfl, fun {k _ _} hk => by cases k <;> simp [row] at hk ⊢⟩
  · rw [hi.onDb] at h
    obtain ⟨-, hnone, rfl⟩ := Db.insert_eq_some h
    refine ⟨by simp [hi.asItem], by simp [hi.row_of_ne _ hi.ne_history.symm], fun {k' id r'} _ => ?_⟩
    by_cases hk : k' = k
    · subst hk
      rw [Db.setRow_row]
      simp only [List.filterMap_cons, hi.row, List.filterMap_nil, List.mem_singleton]
      split
      · next heq =>
        subst heq
        simp only [hnone, Option.some.injEq, reduceCtorEq, false_or]
        exact ⟨fun h => ⟨by rw [h], h.symm⟩, fun h => h.2.symm⟩
      · next hne =>
        refine ⟨Or.inl, fun h => h.resolve_right ?_⟩
        rintro ⟨rfl, rfl⟩
        exact hne rfl
    · rw [Db.setRow_row_of_ne _ hk]
      simp [hi.row_of_ne k' hk]

/-- **Insertions add their rows.** -/
theorem insertions_adds {is : List (Insertion F)} {db db' : Db F} (h : is.forM Insertion.onDb db = some ((), db')) :
    db.Adds is db' := by
  induction is generalizing db with
  | nil =>
    obtain rfl := (Prod.mk.inj (Option.some.inj h)).2
    exact Db.Adds.nil db
  | cons i is ih =>
    rw [forM_cons_apply] at h
    obtain ⟨⟨_, db₁⟩, hone, hrest⟩ := Option.bind_eq_some_iff.mp h
    exact (Insertion.adds hone).append (ih hrest)

theorem smallTables_sound : smallTables.Sound :=
  (insertAll_onDb Tables.empty_sound (Option.some_get insertAll_smallDatabase).symm).1

end TpccBench
