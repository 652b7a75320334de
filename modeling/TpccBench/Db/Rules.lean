import TpccBench.Db.Commit

/-!
# Reading a transaction on a database backwards

What each statement did, given that it did not fail, and which database it has left. In
a database that tables show, a row is at its own ids, and these make a key
(`TpccBench.Db.Keyed`): so a row that is read is written back where it was.
-/

namespace TpccBench

open Prog

variable {F : Type}

namespace Db

variable {db db' : Db F} {k k' : Kind} {id : RowId k}

/-! ### Databases with every row at its ids -/

/-- **Every row is at its ids**, and these make a key. -/
structure Keyed (db : Db F) : Prop where
  ids {k : Kind} {id : RowId k} {r : Row F k} : db.row k id = some r → rowId k r = id
  keys {k : Kind} {id : RowId k} {r : Row F k} : db.row k id = some r → (primary k id).isSome

theorem Keyed.setRow (h : db.Keyed) {r : Row F k} (hkey : (primary k (rowId k r)).isSome) :
    (db.setRow k (rowId k r) (some r)).Keyed := by
  have hrow : ∀ {k' : Kind} {id : RowId k'} {r' : Row F k'},
      (db.setRow k (rowId k r) (some r)).row k' id = some r' →
        db.row k' id = some r' ∨ rowId k' r' = id ∧ (primary k' id).isSome := by
    intro k' id r' hr'
    by_cases hk : k' = k
    · subst hk
      rw [setRow_row] at hr'
      split at hr'
      · next hid =>
        obtain rfl := Option.some.inj hr'
        exact Or.inr ⟨hid.symm, hid ▸ hkey⟩
      · exact Or.inl hr'
    · rw [setRow_row_of_ne _ hk] at hr'
      exact Or.inl hr'
  exact ⟨fun hr => (hrow hr).elim h.ids And.left, fun hr => (hrow hr).elim h.keys And.right⟩

/-- A row is written where there is one. -/
theorem Keyed.write (h : db.Keyed) {r r₀ : Row F k} (h₀ : db.row k id = some r₀) (hid : rowId k r = id) :
    (db.setRow k id (some r)).Keyed := by
  subst hid
  exact h.setRow (h.keys h₀)

theorem Keyed.remove (h : db.Keyed) (id : RowId k) : (db.setRow k id none).Keyed := by
  have hrow : ∀ {k' : Kind} {id' : RowId k'} {r : Row F k'},
      (db.setRow k id none).row k' id' = some r → db.row k' id' = some r := by
    intro k' id' r hr
    by_cases hk : k' = k
    · subst hk
      rw [setRow_row] at hr
      split at hr
      · exact absurd hr (by simp)
      · exact hr
    · rwa [setRow_row_of_ne _ hk] at hr
  exact ⟨fun hr => h.ids (hrow hr), fun hr => h.keys (hrow hr)⟩

theorem Keyed.history (h : db.Keyed) (hs : List (History F)) : ({ db with history := hs } : Db F).Keyed :=
  ⟨h.ids, h.keys⟩

/-- A customer is written, with the name it had. -/
theorem setRow_nameKey {id id' : ℤ × ℤ × ℤ} {cust cust' : Customer F} (hrow : db'.row .customer = db.row .customer)
    (hcust : db.row .customer id' = some cust) (hname : Op.nameKey cust' = Op.nameKey cust) :
    ((db'.setRow .customer id' (some cust')).row .customer id).map Op.nameKey =
      (db.row .customer id).map Op.nameKey := by
  rw [setRow_row, hrow]
  split
  · next heq => rw [heq, hcust, Option.map_some, Option.map_some, hname]
  · rfl

/-! ### Statements -/

theorem find_eq_some {u : Unit} (h : find k id db = some (u, db')) : (primary k id).isSome ∧ db = db' :=
  assert_eq_some h

theorem peek_eq_some {r : Option (Row F k)} (h : peek k id db = some (r, db')) :
    db.row k id = r ∧ db = db' :=
  Prod.mk.inj (Option.some.inj h)

theorem get_eq_some {r : Row F k} (h : get k id db = some (r, db')) :
    db.row k id = some r ∧ db = db' := by
  obtain ⟨r', hr', heq⟩ := Option.map_eq_some_iff.mp h
  obtain ⟨rfl, rfl⟩ := Prod.mk.inj heq
  exact ⟨hr', rfl⟩

theorem set_eq_some {r : Row F k} {u : Unit} (h : set k r db = some (u, db')) :
    db' = db.setRow k (rowId k r) (some r) :=
  (Prod.mk.inj (Option.some.inj h)).2.symm

theorem remove_eq_some {u : Unit} (h : remove k id db = some (u, db')) : db' = db.setRow k id none :=
  (Prod.mk.inj (Option.some.inj h)).2.symm

theorem insertHistory_eq_some {r : History F} {u : Unit} (h : insertHistory r db = some (u, db')) :
    db' = { db with history := db.history ++ [r] } :=
  (Prod.mk.inj (Option.some.inj h)).2.symm

theorem insert_eq_some {r : Row F k} {u : Unit} (h : insert k r db = some (u, db')) :
    (rowLinks k r).isSome ∧ db.row k (rowId k r) = none ∧ db' = db.setRow k (rowId k r) (some r) := by
  rw [insert] at h
  split at h
  · next hc => exact ⟨hc.1, Option.isNone_iff_eq_none.mp hc.2, (Prod.mk.inj (Option.some.inj h)).2.symm⟩
  · exact absurd h (by simp)

/-! ### Statements that do not fail -/

theorem find_apply (hk : db.Keyed) {r : Row F k} (h : db.row k id = some r) :
    find k id db = some ((), db) := if_pos (hk.keys h)

theorem get_apply {r : Row F k} (h : db.row k id = some r) : get k id db = some (r, db) := by
  rw [get, h, Option.map_some]

theorem set_apply {r : Row F k} (h : rowId k r = id) :
    set k r db = some ((), db.setRow k id (some r)) := by rw [set, h]

theorem insert_apply {r : Row F k} (hlinks : (rowLinks k r).isSome) (hid : rowId k r = id)
    (hnone : db.row k id = none) : insert k r db = some ((), db.setRow k id (some r)) := by
  subst hid
  exact if_pos ⟨hlinks, Option.isNone_iff_eq_none.mpr hnone⟩

/-! ### Keys and items -/

/-- A row that can be linked has ids that make a key. -/
theorem primary_isSome (hk : k ≠ .history) {r : Row F k} (h : (rowLinks k r).isSome) :
    (primary k (rowId k r)).isSome := by
  obtain ⟨ls, hls⟩ := Option.isSome_iff_exists.mp h
  obtain ⟨l, -, hl⟩ := primary_mem hk hls
  rw [hl]
  rfl

theorem findItem_eq_some {i : ℤ} {item : Option (Item F)} (h : findItem i db = some (item, db')) :
    1 ≤ i ∧ db.items[(i - 1).toNat]? = item ∧ db = db' := by
  rw [findItem] at h
  split at h
  · next hi => exact ⟨hi, Prod.mk.inj (Option.some.inj h)⟩
  · exact absurd h (by simp)

/-- The items of an order, one by one. -/
theorem findAndValidateItems_eq_some {items : List NewOrderItem} {tuples : Option (List (Item F))}
    (h : findAndValidateItems items db = some (tuples, db')) :
    db = db' ∧ ∀ ts, tuples = some ts →
      List.Forall₂ (fun (item : NewOrderItem) tuple => 1 ≤ item.iId ∧
        db.items[(item.iId - 1).toNat]? = some tuple) items ts := by
  induction items generalizing tuples db' with
  | nil =>
    obtain ⟨rfl, rfl⟩ := Prod.mk.inj (Option.some.inj h)
    refine ⟨rfl, fun ts hts => ?_⟩
    obtain rfl := Option.some.inj hts
    exact List.Forall₂.nil
  | cons item items ih =>
    rw [findAndValidateItems] at h
    obtain ⟨found, db₁, hfind, h⟩ := bind_eq_some h
    obtain ⟨hid, hfound, rfl⟩ := findItem_eq_some hfind
    cases found with
    | none =>
      obtain ⟨rfl, rfl⟩ := Prod.mk.inj (Option.some.inj h)
      exact ⟨rfl, fun ts hts => absurd hts (by simp)⟩
    | some tuple =>
      obtain ⟨rest, db₂, hrest, h⟩ := bind_eq_some h
      obtain ⟨rfl, hall⟩ := ih hrest
      obtain ⟨rfl, rfl⟩ := Prod.mk.inj (Option.some.inj h)
      refine ⟨rfl, fun ts hts => ?_⟩
      obtain ⟨ts', rfl, rfl⟩ := Option.map_eq_some_iff.mp hts
      exact List.Forall₂.cons ⟨hid, hfound⟩ (hall ts' rfl)

end Db

/-- The rows that tables show are at their ids. -/
theorem Tables.Sound.keyed {t : Tables F} (h : t.Sound) : t.db.Keyed where
  ids := Tables.rowId_of_row h.linked
  keys hr := by
    obtain ⟨p, hp, -⟩ := Tables.lookup_of_row hr
    obtain ⟨l, hl, -⟩ := Option.bind_eq_some_iff.mp hp
    rw [hl]
    rfl

/-! ### The ids that make keys -/

section Keys

variable {w d c i o n : ℤ}

theorem primary_district_iff : (primary .district (w, d)).isSome ↔ validWarehouse w ∧ validDistrict d := by
  rw [primary, Option.isSome_map, Option.isSome_iff_exists]
  simp [makeDistrictKey_eq_some]

theorem primary_stock_iff : (primary .stock (w, i)).isSome ↔ validWarehouse w ∧ validStock i := by
  rw [primary, Option.isSome_map, Option.isSome_iff_exists]
  simp [makeStockKey_eq_some]

theorem primary_customer_iff :
    (primary .customer (w, d, c)).isSome ↔ validWarehouse w ∧ validDistrict d ∧ validCustomer c := by
  rw [primary, Option.isSome_map, Option.isSome_iff_exists]
  simp [makeCustomerKey_eq_some]

theorem primary_order_iff : (primary .order (w, d, o)).isSome ↔
    validWarehouse w ∧ validDistrict d ∧ validOrder o ∧ orderKeyFits w d o := by
  rw [primary, Option.isSome_map, Option.isSome_iff_exists]
  simp [makeOrderKey_eq_some]

theorem primary_orderLine_iff : (primary .orderLine (w, d, o, n)).isSome ↔
    validWarehouse w ∧ validDistrict d ∧ validOrder o ∧ validLine n ∧ orderLineKeyFits w d o n := by
  rw [primary, Option.isSome_map, Option.isSome_iff_exists]
  simp [makeOrderLineKey_eq_some]

theorem primary_newOrder_iff :
    (primary .newOrder (w, d, o)).isSome ↔ validWarehouse w ∧ validDistrict d ∧ validOrder o := by
  rw [primary, Option.isSome_map, Option.isSome_iff_exists]
  simp [makeNewOrderKey_eq_some]

/-- An order has two keys. -/
theorem rowLinks_order_isSome {r : Order} (hw : validWarehouse r.oWId) (hd : validDistrict r.oDId)
    (hc : validCustomer r.oCId) (ho : validOrder r.oId) (hfits : orderKeyFits r.oWId r.oDId r.oId) :
    (rowLinks (F := F) .order r).isSome := by
  rw [rowLinks, makeOrderKey_eq_some.mpr ⟨⟨hw, hd, ho, hfits⟩, rfl⟩, Option.bind_some,
    makeOrderByCustomerKey_eq_some.mpr ⟨⟨hw, hd, hc, ho⟩, rfl⟩]
  rfl

/-- A row with one key can be linked if its ids make the key. -/
theorem rowLinks_isSome {k : Kind} (hk : k ≠ .order) {r : Row F k} (h : (primary k (rowId k r)).isSome) :
    (rowLinks k r).isSome := by
  cases k with
  | order => exact absurd rfl hk
  | warehouse | history => rfl
  | stock | district | customer | orderLine | newOrder =>
    simpa only [rowLinks, primary, rowId, Option.isSome_map] using h

end Keys

end TpccBench
