import TpccBench.Load.Letters

/-!
# The foreign keys of a load

An order line is of an item that is drawn from a hundred thousand, and the tables hold as many
items as the generator was told. So the lines name items and stock rows that are there, whatever
is drawn, if and only if that is the number of the items
(`TpccBench.TPCCGenerator.references_complete_iff`). Orders, customers and new orders fit in any
case.
-/

namespace TpccBench

open Prog

variable {F : Type}

/-- **Referential completeness**: what a row names is there. -/
structure Db.Complete (db : Db F) : Prop where
  item {id : ℤ × ℤ × ℤ × ℤ} {line : OrderLine F} : db.row .orderLine id = some line →
    ∃ item ∈ db.items, item.iId = line.olIId
  stock {id : ℤ × ℤ × ℤ × ℤ} {line : OrderLine F} : db.row .orderLine id = some line →
    (db.row .stock (line.olSupplyWId, line.olIId)).isSome
  customer {w d o : ℤ} {order : Order} : db.row .order (w, d, o) = some order →
    (db.row .customer (w, d, order.oCId)).isSome
  owns {w d c : ℤ} : (db.row .customer (w, d, c)).isSome →
    ∃! o, ∃ order, db.row .order (w, d, o) = some order ∧ order.oCId = c
  newOrder {w d o : ℤ} : (db.row .newOrder (w, d, o)).isSome → (db.row .order (w, d, o)).isSome

namespace TPCCGenerator

variable {g : TPCCGenerator} {warehouses : ℕ} {x : LoadData F} {w d c o : ℤ}

/-! ### The orders -/

/-- **Each customer owns one order**: the orders' customers are a permutation. -/
theorem MakesDistrict.owns [Money F] {y : DistrictData F} (hy : g.MakesDistrict w d y)
    (hc : c ∈ idsTo g.customersPerDistrict) :
    ∃! o, o ∈ idsTo g.customersPerDistrict ∧ (y.order o).order.oCId = c := by
  have hlen : y.permutation.length = g.customersPerDistrict := by
    rw [hy.permutation.length_eq, idsTo, List.length_map, List.length_range]
  have hat : ∀ {o}, o ∈ idsTo g.customersPerDistrict →
      y.permutation[(o - 1).toNat]? = some (y.order o).order.oCId := fun ho =>
    (hy.order _ (mem_idsTo.mp ho).1 (mem_idsTo.mp ho).2).2
  obtain ⟨i, hi, hget⟩ := List.mem_iff_getElem.mp (hy.permutation.mem_iff.mpr hc)
  have hmem : (i : ℤ) + 1 ∈ idsTo g.customersPerDistrict := mem_idsTo.mpr (by omega)
  have hindex : ((i : ℤ) + 1 - 1).toNat = i := by omega
  refine ⟨(i : ℤ) + 1, ⟨hmem, ?_⟩, ?_⟩
  · have hrow := hat hmem
    rw [hindex, List.getElem?_eq_getElem hi, hget] at hrow
    exact (Option.some.inj hrow).symm
  · rintro o ⟨ho, rfl⟩
    have hids := mem_idsTo.mp ho
    have hrow := hat ho
    have hlt : (o - 1).toNat < y.permutation.length := by omega
    rw [List.getElem?_eq_getElem hlt] at hrow
    -- no customer is there twice
    have hnd : y.permutation.Nodup := hy.permutation.nodup_iff.mpr (nodup_idsTo _)
    have heq := (hnd.getElem_inj_iff).mp ((Option.some.inj hrow).trans hget.symm)
    omega

/-! ### The rows that are there -/

section Rows

variable {r : Order}

theorem db_stock_isSome {i : ℤ} : ((g.db warehouses x).row .stock (w, i)).isSome ↔
    w ∈ idsTo warehouses ∧ i ∈ idsTo g.numItems := by
  simp only [db, rowOf]
  split <;> simp [*]

theorem db_customer_isSome : ((g.db warehouses x).row .customer (w, d, c)).isSome ↔
    w ∈ idsTo warehouses ∧ d ∈ idsTo g.districtsPerWarehouse ∧ c ∈ idsTo g.customersPerDistrict := by
  simp only [db, rowOf]
  split <;> simp [*]

theorem db_order_eq_some : (g.db warehouses x).row .order (w, d, o) = some r ↔
    (w ∈ idsTo warehouses ∧ d ∈ idsTo g.districtsPerWarehouse ∧ o ∈ idsTo g.customersPerDistrict) ∧
      (((x.warehouse w).district d).order o).order = r := by
  simp only [db, rowOf]
  split <;> simp [*]

theorem db_orderLine_eq_some {n : ℤ} {line : OrderLine F} :
    (g.db warehouses x).row .orderLine (w, d, o, n) = some line ↔
      (w ∈ idsTo warehouses ∧ d ∈ idsTo g.districtsPerWarehouse ∧ o ∈ idsTo g.customersPerDistrict ∧
        n ∈ idsTo (((x.warehouse w).district d).order o).order.oOlCnt.toNat) ∧
        (((x.warehouse w).district d).order o).line n = line := by
  simp only [db, rowOf]
  split <;> simp [*]

end Rows

/-! ### When they are complete -/

variable [Money F] {t : Tables F}

/-- Each customer that is loaded owns one order. -/
theorem Makes.owns (hx : g.Makes warehouses x) (hc : ((g.db warehouses x).row .customer (w, d, c)).isSome) :
    ∃! o, ∃ order, (g.db warehouses x).row .order (w, d, o) = some order ∧ order.oCId = c := by
  obtain ⟨hw, hd, hc⟩ := db_customer_isSome.mp hc
  obtain ⟨o, ⟨ho, hcid⟩, hunique⟩ := ((hx.at hw).at hd).owns hc
  refine ⟨o, ⟨_, db_order_eq_some.mpr ⟨⟨hw, hd, ho⟩, rfl⟩, hcid⟩, ?_⟩
  rintro o' ⟨order, horder, hcid'⟩
  obtain ⟨⟨-, -, ho'⟩, rfl⟩ := db_order_eq_some.mp horder
  exact hunique o' ⟨ho', hcid'⟩

/-- The orders, the customers and the new orders fit. -/
theorem Makes.complete (hx : g.Makes warehouses x)
    (hitem : ∀ {w d o n : ℤ} {line : OrderLine F}, (g.db warehouses x).row .orderLine (w, d, o, n) = some line →
      line.olIId ∈ idsTo g.numItems) : (g.db warehouses x).Complete where
  item {id line} hl := by
    have hin := hitem hl
    refine ⟨x.item line.olIId, List.mem_map_of_mem hin, ?_⟩
    exact hx.item _ (mem_idsTo.mp hin).1 (mem_idsTo.mp hin).2
  stock {id line} hl := by
    obtain ⟨w, d, o, n⟩ := id
    obtain ⟨⟨hw, hd, ho, hn⟩, rfl⟩ := db_orderLine_eq_some.mp hl
    rw [((((hx.at hw).at hd).orderAt ho).lineAt hn).supply]
    exact db_stock_isSome.mpr ⟨hw, hitem hl⟩
  customer horder := by
    obtain ⟨⟨hw, hd, ho⟩, rfl⟩ := db_order_eq_some.mp horder
    exact db_customer_isSome.mpr ⟨hw, hd, ((hx.at hw).at hd).customer_of_order ho⟩
  owns := hx.owns
  newOrder {w d o} hno := by
    have hin : w ∈ idsTo warehouses ∧ d ∈ idsTo g.districtsPerWarehouse ∧ o ∈ idsTo g.customersPerDistrict := by
      simp only [db, rowOf] at hno
      split at hno
      · next h => exact ⟨h.1, h.2.1, h.2.2.1⟩
      · exact absurd hno (by simp)
    rw [db_order_eq_some.mpr ⟨hin, rfl⟩]
    rfl

/-- **A load of a hundred thousand items is complete.** -/
theorem Loads.complete (ht : g.Loads warehouses t) (hitems : g.numItems = 100000) : t.db.Complete := by
  obtain ⟨-, x, hx, hdb⟩ := ht.exists_db
  rw [hdb]
  refine hx.complete fun {w d o n line} hl => ?_
  obtain ⟨⟨hw, hd, ho, hn⟩, rfl⟩ := db_orderLine_eq_some.mp hl
  obtain ⟨m, hm⟩ := ((((hx.at hw).at hd).orderAt ho).lineAt hn).item
  rw [hm, mem_idsTo, hitems]
  exact ⟨g.random.lower_le m (by decide), g.random.le_upper m (by decide)⟩

/-- **The lines stray**, where there are fewer items. -/
theorem Loads.not_complete (ht : g.Loads warehouses t) (hstrays : ∀ n, g.random.number n 1 100000 = 100000)
    (hw : 1 ≤ warehouses) (hitems : g.numItems ≠ 100000) : ¬t.db.Complete := by
  obtain ⟨-, x, hx, hdb⟩ := ht.exists_db
  rw [hdb]
  intro hcomplete
  have hone : ∀ {n : ℕ}, 1 ≤ n → (1 : ℤ) ∈ idsTo n := fun h => mem_idsTo.mpr ⟨le_rfl, by exact_mod_cast h⟩
  have hw := hone hw
  have hd := hone g.districts_range.1
  have ho := hone g.customers_range.1
  have hmakes := ((hx.at hw).at hd).orderAt ho
  have hn : (1 : ℤ) ∈ idsTo (((x.warehouse 1).district 1).order 1).order.oOlCnt.toNat := by
    have := hmakes.olCnt.1
    exact hone (by omega)
  obtain ⟨item, hmem, hid⟩ := hcomplete.item (db_orderLine_eq_some.mpr ⟨⟨hw, hd, ho, hn⟩, rfl⟩)
  obtain ⟨m, hm⟩ := (hmakes.lineAt hn).item
  rw [hm, hstrays] at hid
  obtain ⟨i, hi, rfl⟩ := List.mem_map.mp hmem
  have hids := mem_idsTo.mp hi
  have hiid := hx.item i hids.1 hids.2
  have hle := g.items_range.2
  omega

/-- **Loads are complete** if and only if the generator makes all the items there may be. -/
theorem references_complete_iff (hw₁ : 1 ≤ warehouses) (hw₂ : warehouses ≤ 100) :
    (∀ random (t : Tables F), ({ g with random := random }).Loads warehouses t → t.db.Complete) ↔
      g.numItems = 100000 := by
  constructor
  · intro h
    by_contra hne
    have hcustomers := g.customers_range.2
    obtain ⟨t, ht⟩ := exists_loads (F := F) (g := g) (t := 100000) hw₂ (by omega) (by omega)
    exact Loads.not_complete ht (fun n => rfl) hw₁ hne (h _ t ht)
  · exact fun hitems random t ht => Loads.complete ht hitems

theorem allItems_range : 1 ≤ 100000 ∧ 100000 ≤ 100000 := by decide

/-- The small generator, with all the items there may be. -/
def allItemsGenerator : TPCCGenerator := { smallGenerator with numItems := 100000, items_range := allItems_range }

/-- One item, and all of them. -/
theorem references_complete_small :
    (¬∀ random (t : Tables ℚ), ({ smallGenerator with random := random }).Loads 1 t → t.db.Complete) ∧
      ∀ random (t : Tables ℚ), ({ allItemsGenerator with random := random }).Loads 1 t → t.db.Complete :=
  ⟨(references_complete_iff le_rfl (by decide)).not.mpr (by decide),
    (references_complete_iff (g := allItemsGenerator) le_rfl (by decide)).mpr rfl⟩

/-- A generator of one item, whose lines are of the last of a hundred thousand. -/
def strayGenerator : TPCCGenerator :=
  cycling 100000 1 1 smallGenerator.items_range smallGenerator.customers_range

theorem references_stray : ∃ t : Tables ℚ, strayGenerator.Loads 1 t ∧ ¬t.db.Complete := by
  have hfair : strayGenerator.Fair (1 + 1) := cycling_fair (by decide) (by decide)
  have hnames : ∀ x : LoadData ℚ, strayGenerator.Makes 1 x → strayGenerator.DistinctNames 1 x :=
    fun x hx => hx.distinctNames (by decide)
  obtain ⟨l, hl⟩ := load_isSome hfair (by decide) hnames 0
  have ht : strayGenerator.Loads 1 l.tables := ⟨_, 0, l, hl, rfl⟩
  exact ⟨l.tables, ht, ht.not_complete (fun n => rfl) le_rfl (by decide)⟩

end TPCCGenerator

end TpccBench
