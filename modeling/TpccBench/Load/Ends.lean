import TpccBench.Db.ByName
import TpccBench.Load.Loaded

/-!
# Loads that end

A load ends if its generator is fair, and no two customers of a district have the same name
(`TpccBench.TPCCGenerator.load_isSome`). The rows go where nothing is, and all their keys fit: so
what may fail is to find a new id, and to insert a customer by name.
-/

namespace TpccBench

open Prog

variable {F : Type}

/-! ### Insertions that do not fail -/

section Named

variable {t t' : Tables F}

/-- **Other rows** do not change the customers in name order. -/
theorem Tables.Named.inserts (h : t.Named) {x : Op F Ptr} {k : Kind} {r : Row F k} (hx : Op.Inserts x k r)
    (hk : k ≠ .customer) {p : Ptr} (hrun : x t = some (p, t')) : t'.Named := by
  obtain ⟨ls, hls, -, rfl, hstore, hrest⟩ := hx.of_eq_some hrun
  have hnames : t'.names = t.names := Tables.names_of_inserts hx h.wellFormed hrun
  refine ⟨(hx.grows hrun).wellFormed h.wellFormed, by rw [hnames]; exact h.increasing, fun p => ?_⟩
  have hname : t'.customersByName = t.customersByName := congrArg Rest.customersByName hrest
  have hindex : ∀ key, t'.store.index (.tree .customers) key = t.store.index (.tree .customers) key := fun key => by
    rw [hstore]
    refine (Store.setIndex_index _ _ _ (Index.tree TreeName.customers, key)).trans (if_neg fun hmem => hk ?_)
    exact (kind_of_rowLinks hls hmem).symm
  simp only [hname, hindex]
  exact h.linked p

/-- Nothing is inserted twice, and no customer by a name that is taken. -/
structure Insertion.Fits (i : Insertion F) (db : Db F) : Prop where
  keyed : i.Keyed
  onDb : (i.onDb db).isSome
  name (c : Customer F) : i = .customer c → ∀ id c', db.row .customer id = some c' → Op.nameKey c' ≠ Op.nameKey c

/-- An insertion of a row that fits. -/
theorem Op.Inserts.isSome (hs : t.Sound) {x : Op F Ptr} {k : Kind} {r : Row F k} (hx : Op.Inserts x k r)
    (hk : k ≠ .history) (h : (Db.insert k r t.db).isSome) : ∃ p t', x t = some (p, t') := by
  rw [Db.insert] at h
  split at h
  · next hfits =>
    obtain ⟨ls, hls⟩ := Option.isSome_iff_exists.mp hfits.1
    rcases hx t with ⟨_, t', -, -, hrun, -⟩ | ⟨-, hfail⟩
    · exact ⟨_, t', hrun⟩
    · obtain ⟨l, hl, hne⟩ := hfail ls hls
      exact absurd (Tables.vacant_of_row_eq_none hk hs.linked hls (Option.isNone_iff_eq_none.mp hfits.2) l hl) hne
  · exact absurd h (by simp)

/-- An insertion of a row by its ids alone. -/
structure Insertion.ById (i : Insertion F) (x : Op F Ptr) (k : Kind) (r : Row F k) : Prop where
  inserts : Op.Inserts x k r
  ne_history : k ≠ .history
  ne_customer : k ≠ .customer
  exec : i.exec = x >>= fun _ => pure ()
  onDb : i.onDb = Db.insert k r

/-- **All but items, customers and history rows** are inserted by their ids alone. -/
theorem Insertion.cases_exec (i : Insertion F) (hi : i.Keyed) :
    (∃ item, i = .item item) ∨ (∃ c, i = .customer c) ∨ (∃ h, i = .history h) ∨ ∃ x k r, i.ById x k r := by
  have hrow : ∀ {x : Op F Ptr} {k : Kind} {r : Row F k}, i.ById x k r → (∃ item, i = .item item) ∨
      (∃ c, i = .customer c) ∨ (∃ h, i = .history h) ∨ ∃ x k r, i.ById x k r := fun h =>
    Or.inr (Or.inr (Or.inr ⟨_, _, _, h⟩))
  cases i with
  | item item => exact Or.inl ⟨item, rfl⟩
  | customer c => exact Or.inr (Or.inl ⟨c, rfl⟩)
  | history h => exact Or.inr (Or.inr (Or.inl ⟨h, rfl⟩))
  | warehouse w =>
    have hkey : ∀ key, some w.wId = some key → key ≠ 0 := fun key hkey => Option.some.inj hkey ▸ hi
    refine hrow ⟨Op.insertKeyed_inserts (k := .warehouse) (r := w) (n := .warehouses) hkey rfl, by decide, by decide,
      ?_, rfl⟩
    simp only [exec, Op.insertWarehouse, bind_assoc]
    rfl
  | stock s =>
    exact hrow ⟨Op.insertKeyed_inserts (F := F) (k := .stock) (r := s) (fun _ => makeStockKey_ne_zero) rfl, by decide,
      by decide, by simp only [exec, Op.insertStock, bind_assoc], rfl⟩
  | district d =>
    exact hrow ⟨Op.insertKeyed_inserts (k := .district) (r := d) (fun _ => makeDistrictKey_ne_zero) rfl, by decide,
      by decide, by simp only [exec, Op.insertDistrict, bind_assoc], rfl⟩
  | order o => exact hrow ⟨Op.insertOrder_inserts o, by decide, by decide, rfl, rfl⟩
  | orderLine ol => exact hrow ⟨Op.insertOrderLine_inserts ol, by decide, by decide, rfl, rfl⟩
  | newOrder w d o => exact hrow ⟨Op.insertNewOrder_inserts w d o, by decide, by decide, rfl, rfl⟩

/-- **An insertion** leaves the customers in name order. -/
theorem Insertion.exec_named {i : Insertion F} (hn : t.Named) (hi : i.Keyed) (hrun : i.exec t = some ((), t')) :
    t'.Named := by
  have hwf : t'.WellFormed := (Insertion.grows hrun).wellFormed hn.wellFormed
  rcases i.cases_exec hi with ⟨item, rfl⟩ | ⟨c, rfl⟩ | ⟨r, rfl⟩ | ⟨x, k, r, hx⟩
  · have hrun : Op.insertItem item t = some ((), t') := hrun
    rw [Op.insertItem] at hrun
    split at hrun
    · obtain rfl := (Prod.mk.inj (Option.some.inj hrun)).2
      exact ⟨hwf, hn.increasing, hn.linked⟩
    · exact absurd hrun (by simp)
  · have hrun : Op.insertCustomer c t = some ((), t') := hrun
    obtain ⟨key, hkey, hid, hname⟩ := Op.insertCustomer_new hn hrun
    obtain ⟨t₁, hrun₁, hn₁, -⟩ := Op.insertCustomer_of_new hn hkey hid hname
    obtain rfl := (Prod.mk.inj (Option.some.inj (hrun₁.symm.trans hrun))).2
    exact hn₁
  · obtain ⟨t₁, hrun₁, hstore, hrest⟩ := Op.insertHistory_apply t r
    rw [exec, bind_apply, hrun₁, Option.bind_some] at hrun
    obtain rfl : t₁ = t' := (Prod.mk.inj (Option.some.inj hrun)).2
    have hname : t₁.customersByName = t.customersByName := congrArg Rest.customersByName hrest
    have hindex : t₁.store.index = t.store.index := by rw [hstore]; rfl
    refine ⟨hwf, ?_, fun p => ?_⟩
    · rw [Tables.names_congr hname fun p _ => ?_]
      · exact hn.increasing
      · have hcell : t₁.store.cell .customer p = t.store.cell .customer p := by
          rw [hstore, Store.setCell_cell_of_ne _ _ (by simp)]
        exact congrArg _ hcell
    · rw [hname, hindex]
      exact hn.linked p
  · rw [hx.exec] at hrun
    obtain ⟨p, t₁, hins, hret⟩ := bind_eq_some hrun
    obtain rfl := (Prod.mk.inj (Option.some.inj hret)).2
    exact hn.inserts hx.inserts hx.ne_customer hins

/-- Insertions leave the customers in name order. -/
theorem insertAll_named {is : List (Insertion F)} (hn : t.Named) (his : ∀ i ∈ is, i.Keyed)
    (hrun : insertAll is t = some ((), t')) : t'.Named := by
  exact Triple.forM (fun i hi t₁ h₁ _ t₂ hone => Insertion.exec_named h₁ (his i hi) hone) t hn () t' hrun

/-- **An insertion that fits** does not fail. -/
theorem Insertion.exec_isSome {i : Insertion F} (hs : t.Sound) (hn : t.Named) (h : i.Fits t.db) :
    ∃ t', i.exec t = some ((), t') := by
  have hdb := h.onDb
  rcases i.cases_exec h.keyed with ⟨item, rfl⟩ | ⟨c, rfl⟩ | ⟨r, rfl⟩ | ⟨x, k, r, hx⟩
  · rw [onDb, Db.insertItem] at hdb
    split at hdb
    · next hid => exact ⟨{ t with items := t.items ++ [item] }, if_pos hid⟩
    · exact absurd hdb (by simp)
  · rw [onDb, Db.insert] at hdb
    split at hdb
    · next hfits =>
      obtain ⟨ls, hls⟩ := Option.isSome_iff_exists.mp hfits.1
      obtain ⟨key, hkey, rfl⟩ := Option.map_eq_some_iff.mp hls
      have hvacant := Tables.vacant_of_row_eq_none (by decide) hs.linked hls
        (Option.isNone_iff_eq_none.mp hfits.2) _ (List.mem_singleton_self _)
      -- a customer of the name would have a row
      have hname : ∀ e ∈ t.names, e.2 ≠ Op.nameKey c := fun e he heq => by
        obtain ⟨hmem, c', hcell, hkey'⟩ := Tables.mem_names.mp he
        exact h.name c rfl _ c' (hs.row_of_named hmem hcell) (hkey'.symm.trans heq)
      obtain ⟨t', hrun, -⟩ := Op.insertCustomer_of_new hn hkey hvacant hname
      exact ⟨t', hrun⟩
    · exact absurd hdb (by simp)
  · obtain ⟨t', hrun, -⟩ := Op.insertHistory_apply t r
    exact ⟨t', by rw [exec, bind_apply, hrun]; rfl⟩
  · rw [hx.onDb] at hdb
    obtain ⟨p, t', hrun⟩ := hx.inserts.isSome hs hx.ne_history hdb
    exact ⟨t', by rw [hx.exec, bind_apply, hrun]; rfl⟩

end Named

/-! ### Rows that can all be inserted -/

/-- Two insertions of different rows, and of customers with different names. -/
structure Insertion.Apart (i j : Insertion F) : Prop where
  ids {k : Kind} {r r' : Row F k} : k ≠ .history → i.row k = some r → j.row k = some r' → rowId k r ≠ rowId k r'
  names {c c' : Customer F} : i = .customer c → j = .customer c' → Op.nameKey c ≠ Op.nameKey c'

/-- **Rows that can be inserted**, one after the other. -/
structure Fillable (is : List (Insertion F)) : Prop where
  keyed : ∀ i ∈ is, i.Keyed
  links {k : Kind} {r : Row F k} : r ∈ is.filterMap (Insertion.row k) → (rowLinks k r).isSome
  items {n : ℕ} {item : Item F} : (is.filterMap Insertion.asItem)[n]? = some item → item.iId = n + 1
  apart : is.Pairwise Insertion.Apart

/-- The next row fits. -/
theorem Fillable.fits {done is : List (Insertion F)} {i : Insertion F} (h : Fillable (done ++ i :: is)) {db : Db F}
    (hdb : (Tables.empty : Tables F).db.Adds done db) : i.Fits db := by
  have hapart : ∀ j ∈ done, j.Apart i := fun j hj =>
    (List.pairwise_append.mp h.apart).2.2 j hj i List.mem_cons_self
  have hmem : i ∈ done ++ i :: is := List.mem_append_right _ List.mem_cons_self
  have hold : ∀ {k : Kind} {id : RowId k} {r : Row F k}, k ≠ .history → db.row k id = some r →
      rowId k r = id ∧ ∃ j ∈ done, j.row k = some r := fun {k id r} hk hr => by
    rw [hdb.row hk, Tables.empty_row] at hr
    simpa using hr
  refine ⟨h.keyed i hmem, ?_, ?_⟩
  · rcases i.cases_onDb with ⟨item, rfl⟩ | ⟨r, rfl⟩ | ⟨k, r, hi⟩
    · have hlen : db.items.length = (done.filterMap Insertion.asItem).length := by
        rw [hdb.items]
        rfl
      have hid : item.iId = (done.filterMap Insertion.asItem).length + 1 := by
        refine h.items ?_
        rw [List.filterMap_append, List.getElem?_append_right le_rfl, Nat.sub_self]
        rfl
      rw [Insertion.onDb, Db.insertItem, if_pos (by rw [hid, hlen])]
      rfl
    · rfl
    · have hnone : db.row k (rowId k r) = none := by
        by_contra hne
        obtain ⟨r', hr'⟩ := Option.ne_none_iff_exists'.mp hne
        obtain ⟨hid, j, hj, hrow⟩ := hold hi.ne_history hr'
        exact (hapart j hj).ids hi.ne_history hrow hi.row hid
      have hlinks : (rowLinks k r).isSome := h.links (List.mem_filterMap.mpr ⟨i, hmem, hi.row⟩)
      rw [hi.onDb, Db.insert, if_pos ⟨hlinks, by rw [hnone]; rfl⟩]
      rfl
  · rintro c rfl id c' hc'
    obtain ⟨-, j, hj, hrow⟩ := hold (by decide) hc'
    refine (hapart j hj).names ?_ rfl
    cases j with
    | customer c'' => exact congrArg _ (Option.some.inj hrow)
    | _ => exact absurd hrow (by simp [Insertion.row])

/-- **They are all inserted.** -/
theorem Fillable.insertAll {is : List (Insertion F)} (h : Fillable is) :
    ∃ t, TpccBench.insertAll is Tables.empty = some ((), t) := by
  have hloop : ∀ (is done : List (Insertion F)) (t : Tables F), Fillable (done ++ is) → t.Sound → t.Named →
      (Tables.empty : Tables F).db.Adds done t.db → ∃ t', TpccBench.insertAll is t = some ((), t') := by
    intro is
    induction is with
    | nil => exact fun done t _ _ _ _ => ⟨t, rfl⟩
    | cons i is ih =>
      intro done t hfill hs hn hadds
      obtain ⟨t₁, hrun⟩ := Insertion.exec_isSome hs hn (hfill.fits hadds)
      have hkeyed := hfill.keyed i (List.mem_append_right _ List.mem_cons_self)
      have hn₁ := Insertion.exec_named hn hkeyed hrun
      obtain ⟨hs₁, hdb⟩ := Insertion.exec_onDb hs hrun
      have hadds₁ : (Tables.empty : Tables F).db.Adds (done ++ [i]) t₁.db :=
        hadds.append (Insertion.adds (hdb hkeyed))
      obtain ⟨t', hrest⟩ := ih (done ++ [i]) t₁ (by rwa [List.append_assoc]) hs₁ hn₁ hadds₁
      refine ⟨t', ?_⟩
      rw [TpccBench.insertAll, forM_cons_apply, hrun, Option.bind_some]
      exact hrest
  exact hloop is [] Tables.empty h Tables.empty_sound Tables.empty_named (Db.Adds.nil _)

/-! ### The rows of a load -/

namespace TPCCGenerator

variable {g : TPCCGenerator} {warehouses : ℕ} {x : LoadData F}

/-- **The keys of the rows fit.** -/
theorem Makes.links [Money F] (hx : g.Makes warehouses x) {k : Kind} (hk : k ≠ .history) {id : RowId k} {r : Row F k}
    (h : g.rowOf warehouses x k id = some r) (hid : rowId k r = id) : (rowLinks k r).isSome := by
  subst hid
  cases k with
  | history => exact absurd rfl hk
  | warehouse => rfl
  | stock =>
    rw [rowOf] at h
    split at h
    · next hin =>
      refine rowLinks_isSome (by decide) (primary_stock_iff.mpr ⟨hx.validWarehouse hin.1, ?_⟩)
      have hi : 1 ≤ r.sIId ∧ r.sIId ≤ (g.numItems : ℤ) := mem_idsTo.mp hin.2
      have hitems := g.items_range.2
      simp only [validStock, Stock.numStockPerWarehouse]
      omega
    · exact absurd h (by simp)
  | district =>
    rw [rowOf] at h
    split at h
    · next hin =>
      exact rowLinks_isSome (by decide) (primary_district_iff.mpr
        ⟨hx.validWarehouse hin.1, validDistrict_of_mem hin.2⟩)
    · exact absurd h (by simp)
  | customer =>
    rw [rowOf] at h
    split at h
    · next hin =>
      exact rowLinks_isSome (by decide) (primary_customer_iff.mpr
        ⟨hx.validWarehouse hin.1, validDistrict_of_mem hin.2.1, validCustomer_of_mem hin.2.2⟩)
    · exact absurd h (by simp)
  | order =>
    rw [rowOf] at h
    split at h
    · next hin =>
      obtain ⟨hw, hd, ho⟩ := hin
      have hc : validCustomer r.oCId := by
        rw [← Option.some.inj h]
        exact validCustomer_of_mem (((hx.at hw).at hd).customer_of_order ho)
      have hw : TpccBench.validWarehouse r.oWId := hx.validWarehouse hw
      have hd : validDistrict r.oDId := validDistrict_of_mem hd
      obtain ⟨ho, hfits, -⟩ := validOrder_of_mem (w := r.oWId) (d := r.oDId) (o := r.oId) ho
      exact rowLinks_order_isSome hw hd hc ho hfits
    · exact absurd h (by simp)
  | orderLine =>
    rw [rowOf] at h
    split at h
    · next hin =>
      obtain ⟨hw, hd, ho, hn⟩ := hin
      have hcnt := (((hx.at hw).at hd).orderAt ho).olCnt
      have hn : 1 ≤ r.olNumber ∧ _ := mem_idsTo.mp hn
      obtain ⟨ho, -, hfits⟩ := validOrder_of_mem (w := r.olWId) (d := r.olDId) ho
      refine rowLinks_isSome (by decide) (primary_orderLine_iff.mpr
        ⟨hx.validWarehouse hw, validDistrict_of_mem hd, ho, ?_, hfits _⟩)
      simp only [validLine, Order.maxOlCnt]
      omega
    · exact absurd h (by simp)
  | newOrder =>
    rw [rowOf] at h
    split at h
    · next hin =>
      exact rowLinks_isSome (by decide) (primary_newOrder_iff.mpr
        ⟨hx.validWarehouse hin.1, validDistrict_of_mem hin.2.1,
          (validOrder_of_mem (w := r.noWId) (d := r.noDId) hin.2.2.1).1⟩)
    · exact absurd h (by simp)

end TPCCGenerator

/-! ### No two of them are the same -/

/-- Where a row belongs: its warehouse, its district, its kind, its id and its number. -/
def Insertion.address : Insertion F → ℤ × ℤ × ℤ × ℤ × ℤ
  | item i => (0, 0, 0, i.iId, 0)
  | stock s => (s.sWId, 0, 1, s.sIId, 0)
  | warehouse w => (w.wId, 0, 2, 0, 0)
  | district d => (d.dWId, d.dId, 3, 0, 0)
  | customer c => (c.cWId, c.cDId, 4, c.cId, 0)
  | history h => (h.hWId, h.hDId, 5, h.hCId, 0)
  | order o => (o.oWId, o.oDId, 6, o.oId, 0)
  | orderLine ol => (ol.olWId, ol.olDId, 7, ol.olOId, ol.olNumber)
  | newOrder wId dId oId => (wId, dId, 8, oId, 0)

/-- The place of a row with some ids. -/
def place : (k : Kind) → RowId k → ℤ × ℤ × ℤ × ℤ × ℤ
  | .stock, (w, i) => (w, 0, 1, i, 0)
  | .warehouse, w => (w, 0, 2, 0, 0)
  | .district, (w, d) => (w, d, 3, 0, 0)
  | .customer, (w, d, c) => (w, d, 4, c, 0)
  | .history, _ => (0, 0, 5, 0, 0)
  | .order, (w, d, o) => (w, d, 6, o, 0)
  | .orderLine, (w, d, o, n) => (w, d, 7, o, n)
  | .newOrder, (w, d, o) => (w, d, 8, o, 0)

theorem Insertion.address_eq {i : Insertion F} {k : Kind} {r : Row F k} (hk : k ≠ .history) (h : i.row k = some r) :
    i.address = place k (rowId k r) := by
  cases k with
  | history => exact absurd rfl hk
  | _ =>
    cases i with
    | _ =>
      first
      | cases h
        rfl
      | cases h

/-- Rows that belong to different places. -/
def Elsewhere (i j : Insertion F) : Prop := i.address ≠ j.address

/-- Rows of different kinds. -/
theorem Elsewhere.of_kind {i j : Insertion F} (h : i.address.2.2.1 ≠ j.address.2.2.1) : Elsewhere i j :=
  fun heq => h (by rw [heq])

/-- Rows from different turns of a loop. -/
theorem pairwise_elsewhere {l : List ℤ} (hnd : l.Nodup) {f : ℤ → List (Insertion F)}
    (key : ℤ × ℤ × ℤ × ℤ × ℤ → ℤ) (hin : ∀ a ∈ l, (f a).Pairwise Elsewhere)
    (hkey : ∀ a ∈ l, ∀ i ∈ f a, key i.address = a) : (l.flatMap f).Pairwise Elsewhere := by
  refine List.pairwise_flatMap.mpr ⟨hin, hnd.imp_of_mem fun {a b} ha hb hne i hi j hj heq => hne ?_⟩
  rw [← hkey a ha i hi, ← hkey b hb j hj, heq]

namespace TPCCGenerator

variable {g : TPCCGenerator} {warehouses : ℕ} {x : LoadData F} [Money F] {w d o : ℤ}

omit [Money F] in
theorem mem_warehouseRows {i : Insertion F} {x : WarehouseData F} : i ∈ g.warehouseRows w x ↔
    (∃ iId ∈ idsTo g.numItems, i = .stock (x.stock iId)) ∨ i = .warehouse x.warehouse ∨
      ∃ d ∈ idsTo g.districtsPerWarehouse, i ∈ g.districtRows w d (x.district d) := by
  simp only [warehouseRows, List.mem_append, List.mem_map, List.mem_cons, List.mem_flatMap, eq_comm]

omit [Money F] in
theorem mem_districtRows {i : Insertion F} {x : DistrictData F} : i ∈ g.districtRows w d x ↔
    i = .district x.district ∨
      (∃ c ∈ idsTo g.customersPerDistrict, i ∈ [.customer (x.customer c), .history (x.history c)]) ∨
      ∃ o ∈ idsTo g.customersPerDistrict, i ∈ g.orderRows w d o (x.order o) := by
  simp only [districtRows, List.cons_append, List.mem_append, List.mem_cons, List.mem_flatMap]

omit [Money F] in
theorem mem_orderRows {i : Insertion F} {x : OrderData F} : i ∈ g.orderRows w d o x ↔
    i = .order x.order ∨ (∃ n ∈ idsTo x.order.oOlCnt.toNat, i = .orderLine (x.line n)) ∨
      g.IsNew o ∧ i = .newOrder w d o := by
  rw [orderRows]
  split <;> simp_all [eq_comm]

/-! An order. -/

theorem MakesOrder.address {y : OrderData F} (hy : g.MakesOrder w d o y) {i : Insertion F}
    (hi : i ∈ g.orderRows w d o y) : i.address.1 = w ∧ i.address.2.1 = d ∧ 6 ≤ i.address.2.2.1 ∧ i.address.2.2.2.1 = o := by
  rcases mem_orderRows.mp hi with rfl | ⟨n, hn, rfl⟩ | ⟨-, rfl⟩
  · have hid := hy.id
    simp only [Prod.mk.injEq] at hid
    simp [Insertion.address, hid]
  · have hid := (hy.lineAt hn).id
    simp only [rowId, Prod.mk.injEq] at hid
    simp [Insertion.address, hid]
  · simp [Insertion.address]

theorem MakesOrder.line_address {y : OrderData F} (hy : g.MakesOrder w d o y) {n : ℤ}
    (hn : n ∈ idsTo y.order.oOlCnt.toNat) : Insertion.address (.orderLine (y.line n)) = (w, d, 7, o, n) := by
  have hid := (hy.lineAt hn).id
  simp only [rowId, Prod.mk.injEq] at hid
  simp [Insertion.address, hid]

theorem MakesOrder.pairwise {y : OrderData F} (hy : g.MakesOrder w d o y) :
    (g.orderRows w d o y).Pairwise Elsewhere := by
  have hlines : ((idsTo y.order.oOlCnt.toNat).map fun n => Insertion.orderLine (y.line n)).Pairwise Elsewhere := by
    rw [List.map_eq_flatMap]
    refine pairwise_elsewhere (nodup_idsTo _) (fun a => a.2.2.2.2) (fun n _ => List.pairwise_singleton _ _) ?_
    rintro n hn i hi
    rw [List.mem_singleton.mp hi, hy.line_address hn]
  have hnew : (if g.IsNew o then [Insertion.newOrder (F := F) w d o] else []).Pairwise Elsewhere := by
    split
    · exact List.pairwise_singleton _ _
    · exact List.Pairwise.nil
  have hin : ∀ i ∈ if g.IsNew o then [Insertion.newOrder (F := F) w d o] else [], i.address.2.2.1 = 8 := by
    split
    · exact fun i hi => by rw [List.mem_singleton.mp hi]; rfl
    · exact fun i hi => absurd hi List.not_mem_nil
  rw [orderRows, List.cons_append]
  refine List.pairwise_cons.mpr ⟨fun i hi => ?_, List.pairwise_append.mpr ⟨hlines, hnew, fun i hi j hj => ?_⟩⟩
  · refine Elsewhere.of_kind ?_
    rcases List.mem_append.mp hi with hi | hi
    · obtain ⟨n, hn, rfl⟩ := List.mem_map.mp hi
      simp [Insertion.address]
    · rw [hin i hi]
      simp [Insertion.address]
  · obtain ⟨n, hn, rfl⟩ := List.mem_map.mp hi
    exact Elsewhere.of_kind (by simp [hin j hj, hy.line_address hn])

/-! A district. -/

theorem MakesDistrict.customer_address {y : DistrictData F} (hy : g.MakesDistrict w d y) {c : ℤ}
    (hc : c ∈ idsTo g.customersPerDistrict) {i : Insertion F}
    (hi : i ∈ [.customer (y.customer c), .history (y.history c)]) :
    i.address.1 = w ∧ i.address.2.1 = d ∧ 4 ≤ i.address.2.2.1 ∧ i.address.2.2.1 ≤ 5 ∧ i.address.2.2.2.1 = c := by
  rcases List.mem_pair.mp hi with rfl | rfl
  · have hid := (hy.customerAt hc).id
    simp only [rowId, Prod.mk.injEq] at hid
    simp [Insertion.address, hid]
  · have hh := hy.history c (mem_idsTo.mp hc).1 (mem_idsTo.mp hc).2
    have hat := hh.paidAt
    have hcust := hh.customer
    simp only [Prod.mk.injEq] at hat hcust
    simp [Insertion.address, hat, hcust]

theorem MakesDistrict.address {y : DistrictData F} (hy : g.MakesDistrict w d y) {i : Insertion F}
    (hi : i ∈ g.districtRows w d y) : i.address.1 = w ∧ i.address.2.1 = d ∧ 3 ≤ i.address.2.2.1 := by
  rcases mem_districtRows.mp hi with rfl | ⟨c, hc, hi⟩ | ⟨o, ho, hi⟩
  · have hid := hy.id
    simp only [rowId, Prod.mk.injEq] at hid
    simp [Insertion.address, hid]
  · obtain ⟨hw, hd, ht, -⟩ := hy.customer_address hc hi
    exact ⟨hw, hd, by omega⟩
  · obtain ⟨hw, hd, ht, -⟩ := (hy.orderAt ho).address hi
    exact ⟨hw, hd, by omega⟩

theorem MakesDistrict.pairwise {y : DistrictData F} (hy : g.MakesDistrict w d y) :
    (g.districtRows w d y).Pairwise Elsewhere := by
  rw [districtRows, List.cons_append]
  refine List.pairwise_cons.mpr ⟨fun i hi => ?_, List.pairwise_append.mpr ⟨?_, ?_, fun i hi j hj => ?_⟩⟩
  · refine Elsewhere.of_kind ?_
    have hkind : 4 ≤ i.address.2.2.1 := by
      rcases List.mem_append.mp hi with hi | hi
      · obtain ⟨c, hc, hi⟩ := List.mem_flatMap.mp hi
        exact (hy.customer_address hc hi).2.2.1
      · obtain ⟨o, ho, hi⟩ := List.mem_flatMap.mp hi
        have := ((hy.orderAt ho).address hi).2.2.1
        omega
    exact fun heq => absurd hkind (by rw [← heq]; simp [Insertion.address])
  · refine pairwise_elsewhere (nodup_idsTo _) (fun a => a.2.2.2.1) (fun c hc => ?_) fun c hc i hi =>
      (hy.customer_address hc hi).2.2.2.2
    exact List.pairwise_pair.mpr (Elsewhere.of_kind (by simp [Insertion.address]))
  · exact pairwise_elsewhere (nodup_idsTo _) (fun a => a.2.2.2.1) (fun o ho => (hy.orderAt ho).pairwise)
      fun o ho i hi => ((hy.orderAt ho).address hi).2.2.2
  · obtain ⟨c, hc, hi⟩ := List.mem_flatMap.mp hi
    obtain ⟨o, ho, hj⟩ := List.mem_flatMap.mp hj
    have h₁ := (hy.customer_address hc hi).2.2.2.1
    have h₂ := ((hy.orderAt ho).address hj).2.2.1
    exact Elsewhere.of_kind (by omega)

/-! A warehouse, and all of them. -/

theorem MakesWarehouse.address {y : WarehouseData F} (hy : g.MakesWarehouse w y) {i : Insertion F}
    (hi : i ∈ g.warehouseRows w y) : i.address.1 = w := by
  rcases mem_warehouseRows.mp hi with ⟨iId, hiId, rfl⟩ | rfl | ⟨d, hd, hi⟩
  · exact congrArg Prod.fst (hy.stockAt hiId).id
  · exact hy.id
  · exact ((hy.at hd).address hi).1

theorem MakesWarehouse.pairwise {y : WarehouseData F} (hy : g.MakesWarehouse w y) :
    (g.warehouseRows w y).Pairwise Elsewhere := by
  rw [warehouseRows]
  refine List.pairwise_append.mpr ⟨?_, List.pairwise_cons.mpr ⟨fun i hi => ?_, ?_⟩, fun i hi j hj => ?_⟩
  · rw [List.map_eq_flatMap]
    refine pairwise_elsewhere (nodup_idsTo _) (fun a => a.2.2.2.1) (fun i _ => List.pairwise_singleton _ _) ?_
    rintro iId hiId i hi
    rw [List.mem_singleton.mp hi]
    exact congrArg Prod.snd (hy.stockAt hiId).id
  · obtain ⟨d, hd, hi⟩ := List.mem_flatMap.mp hi
    have := ((hy.at hd).address hi).2.2
    exact Elsewhere.of_kind (fun heq => absurd this (by rw [← heq]; simp [Insertion.address]))
  · exact pairwise_elsewhere (nodup_idsTo _) (fun a => a.2.1) (fun d hd => (hy.at hd).pairwise)
      fun d hd i hi => ((hy.at hd).address hi).2.1
  · obtain ⟨iId, hiId, rfl⟩ := List.mem_map.mp hi
    refine Elsewhere.of_kind (fun heq => ?_)
    have hkind : j.address.2.2.1 = 1 := heq.symm
    rcases List.mem_cons.mp hj with rfl | hj
    · exact absurd hkind (by simp [Insertion.address])
    · obtain ⟨d, hd, hj⟩ := List.mem_flatMap.mp hj
      have := ((hy.at hd).address hj).2.2
      omega

/-- **No two rows of a load** belong to the same place. -/
theorem Makes.pairwise (hx : g.Makes warehouses x) : (g.rows warehouses x).Pairwise Elsewhere := by
  rw [rows]
  refine List.pairwise_append.mpr ⟨?_, ?_, fun i hi j hj => ?_⟩
  · rw [List.map_eq_flatMap]
    refine pairwise_elsewhere (nodup_idsTo _) (fun a => a.2.2.2.1) (fun i _ => List.pairwise_singleton _ _) ?_
    rintro iId hiId i hi
    rw [List.mem_singleton.mp hi]
    exact hx.item iId (mem_idsTo.mp hiId).1 (mem_idsTo.mp hiId).2
  · exact pairwise_elsewhere (nodup_idsTo _) (fun a => a.1) (fun w hw => (hx.at hw).pairwise)
      fun w hw i hi => (hx.at hw).address hi
  · obtain ⟨iId, hiId, rfl⟩ := List.mem_map.mp hi
    obtain ⟨w, hw, hj⟩ := List.mem_flatMap.mp hj
    have hj := (hx.at hw).address hj
    have hw := mem_idsTo.mp hw
    intro heq
    have : (0 : ℤ) = j.address.1 := congrArg Prod.fst heq
    omega

/-! ### Loads -/

/-- **The customers of a district have different names.** -/
def DistinctNames (g : TPCCGenerator) (warehouses : ℕ) (x : LoadData F) : Prop :=
  ∀ w ∈ idsTo warehouses, ∀ d ∈ idsTo g.districtsPerWarehouse,
    ∀ c ∈ idsTo g.customersPerDistrict, ∀ c' ∈ idsTo g.customersPerDistrict,
      Op.nameKey (((x.warehouse w).district d).customer c) = Op.nameKey (((x.warehouse w).district d).customer c') →
        c = c'

/-- The first thousand customers do. -/
theorem Makes.distinctNames (hx : g.Makes warehouses x) (h : g.customersPerDistrict ≤ 1000) :
    g.DistinctNames warehouses x := by
  intro w hw d hd c hc c' hc' heq
  have hmakes := (hx.at hw).at hd
  obtain ⟨num, hnum, hc₁⟩ := (hmakes.customerAt hc).last
  obtain ⟨num', hnum', hc₂⟩ := (hmakes.customerAt hc').last
  have hlast : (((x.warehouse w).district d).customer c).cLast = (((x.warehouse w).district d).customer c').cLast :=
    CString.ext (congrArg Op.NameKey.cLast heq)
  rw [← hlast] at hnum'
  have hinj := makeLastName_inj hnum hnum'
  have hle := mem_idsTo.mp hc
  have hle' := mem_idsTo.mp hc'
  have h₁ := hc₁ (by omega)
  have h₂ := hc₂ (by omega)
  omega

/-- **The rows of a load can be inserted.** -/
theorem Makes.fillable (hx : g.Makes warehouses x) (hnames : g.DistinctNames warehouses x) :
    Fillable (g.rows warehouses x) where
  keyed := hx.keyed
  links {k r} hr := by
    by_cases hk : k = .history
    · subst hk
      rfl
    · exact hx.links hk ((mem_rows_iff hx hk).mp ⟨rfl, hr⟩) rfl
  items {n item} h := by
    rw [rows_items, List.getElem?_map] at h
    obtain ⟨iId, hiId, rfl⟩ := Option.map_eq_some_iff.mp h
    rw [idsTo, List.getElem?_map] at hiId
    obtain ⟨m, hm, rfl⟩ := Option.map_eq_some_iff.mp hiId
    obtain ⟨hlt, rfl⟩ := List.getElem?_eq_some_iff.mp hm
    rw [List.length_range] at hlt
    rw [List.getElem_range]
    exact hx.item _ (by omega) (by omega)
  apart := by
    refine hx.pairwise.imp_of_mem fun {i j} hi hj hne => ⟨fun hk hri hrj heq => hne ?_, fun hic hjc heq => hne ?_⟩
    · rw [Insertion.address_eq hk hri, Insertion.address_eq hk hrj, heq]
    · subst hic hjc
      rename_i c c'
      have hrow : ∀ c : Customer F, .customer c ∈ g.rows warehouses x →
          g.rowOf warehouses x .customer (rowId .customer c) = some c := fun c hc =>
        (mem_rows_iff hx (by decide)).mp ⟨rfl, List.mem_filterMap.mpr ⟨_, hc, rfl⟩⟩
      have hc := hrow c hi
      have hc' := hrow c' hj
      have hw : c.cWId = c'.cWId := congrArg Op.NameKey.cWId heq
      have hd : c.cDId = c'.cDId := congrArg Op.NameKey.cDId heq
      rw [rowOf] at hc hc'
      split at hc
      · next hin =>
        split at hc'
        · next hin' =>
          have hrow : ((x.warehouse c.cWId).district c.cDId).customer c.cId = c := Option.some.inj hc
          have hrow' : ((x.warehouse c'.cWId).district c'.cDId).customer c'.cId = c' := Option.some.inj hc'
          rw [← hw, ← hd] at hrow'
          have hid := hnames _ hin.1 _ hin.2.1 _ hin.2.2 c'.cId hin'.2.2 (by
            change Op.nameKey (((x.warehouse c.cWId).district c.cDId).customer c.cId) = _
            rw [hrow]
            exact heq.trans (congrArg _ hrow'.symm))
          have hid : c.cId = c'.cId := hid
          rw [← hrow, ← hrow', hid]
        · exact absurd hc' (by simp)
      · exact absurd hc (by simp)

/-- **A load ends** if its generator is fair and its customers have different names. -/
theorem load_isSome {tries : ℕ} (hfair : g.Fair tries) (hw : warehouses ≤ 100)
    (hnames : ∀ x : LoadData F, g.Makes warehouses x → g.DistinctNames warehouses x) (drawn : ℕ) :
    ∃ l, g.load (F := F) tries warehouses ⟨Tables.empty, drawn⟩ = some ((), l) := by
  have hemits : Emits True (g.load (F := F) tries warehouses) _ := load_emits fun _ => ⟨hfair, hw⟩
  rcases hemits drawn with ⟨h, -⟩ | ⟨a, n', is, ⟨x, hx, rfl⟩, hrun⟩
  · exact absurd trivial h
  · obtain ⟨t, ht⟩ := (hx.fillable (hnames x hx)).insertAll
    exact ⟨⟨t, n'⟩, by rw [hrun, ht]; rfl⟩

end TPCCGenerator

end TpccBench
