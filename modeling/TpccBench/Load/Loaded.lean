import TpccBench.Load.Data

/-!
# The loaded database

A database that a load has left has the rows the load has made, and no others
(`TpccBench.TPCCGenerator.load_db`). What they are is known of each: which ids there are, that
every customer of a district has one order, and which orders are new.
-/

namespace TpccBench

open Prog

variable {F : Type}

namespace TPCCGenerator

variable (g : TPCCGenerator) (warehouses : ℕ) (x : LoadData F)

/-! ### Its rows -/

/-- **The rows of the loaded database**, by their ids. -/
def rowOf : (k : Kind) → RowId k → Option (Row F k)
  | .warehouse, w => if w ∈ idsTo warehouses then some (x.warehouse w).warehouse else none
  | .stock, (w, i) =>
    if w ∈ idsTo warehouses ∧ i ∈ idsTo g.numItems then some ((x.warehouse w).stock i) else none
  | .district, (w, d) =>
    if w ∈ idsTo warehouses ∧ d ∈ idsTo g.districtsPerWarehouse then
      some ((x.warehouse w).district d).district else none
  | .customer, (w, d, c) =>
    if w ∈ idsTo warehouses ∧ d ∈ idsTo g.districtsPerWarehouse ∧ c ∈ idsTo g.customersPerDistrict then
      some (((x.warehouse w).district d).customer c) else none
  | .order, (w, d, o) =>
    if w ∈ idsTo warehouses ∧ d ∈ idsTo g.districtsPerWarehouse ∧ o ∈ idsTo g.customersPerDistrict then
      some (((x.warehouse w).district d).order o).order else none
  | .orderLine, (w, d, o, n) =>
    if w ∈ idsTo warehouses ∧ d ∈ idsTo g.districtsPerWarehouse ∧ o ∈ idsTo g.customersPerDistrict ∧
        n ∈ idsTo (((x.warehouse w).district d).order o).order.oOlCnt.toNat then
      some ((((x.warehouse w).district d).order o).line n) else none
  | .newOrder, (w, d, o) =>
    if w ∈ idsTo warehouses ∧ d ∈ idsTo g.districtsPerWarehouse ∧ o ∈ idsTo g.customersPerDistrict ∧
        g.IsNew o then
      some ⟨w, d, o⟩ else none
  | .history, _ => none

/-- **The loaded database.** -/
def db : Db F where
  items := (idsTo g.numItems).map x.item
  row := g.rowOf warehouses x
  history := (idsTo warehouses).flatMap fun w => (idsTo g.districtsPerWarehouse).flatMap fun d =>
    (idsTo g.customersPerDistrict).map fun c => ((x.warehouse w).district d).history c

variable {g warehouses x}

/-! ### What has been inserted -/

/-- What a function finds in the rows of a load, from the outside in. -/
theorem filterMap_rows {A : Type} (f : Insertion F → Option A) :
    (g.rows warehouses x).filterMap f =
      (idsTo g.numItems).filterMap (fun i => f (.item (x.item i))) ++
      (idsTo warehouses).flatMap fun w =>
        (idsTo g.numItems).filterMap (fun i => f (.stock ((x.warehouse w).stock i))) ++
        (f (.warehouse (x.warehouse w).warehouse)).toList ++
        (idsTo g.districtsPerWarehouse).flatMap fun d =>
          (f (.district ((x.warehouse w).district d).district)).toList ++
          (idsTo g.customersPerDistrict).flatMap (fun c =>
            (f (.customer (((x.warehouse w).district d).customer c))).toList ++
              (f (.history (((x.warehouse w).district d).history c))).toList) ++
          (idsTo g.customersPerDistrict).flatMap fun o =>
            (f (.order (((x.warehouse w).district d).order o).order)).toList ++
            (idsTo (((x.warehouse w).district d).order o).order.oOlCnt.toNat).filterMap (fun n =>
              f (.orderLine ((((x.warehouse w).district d).order o).line n))) ++
            if g.IsNew o then (f (.newOrder w d o)).toList else [] := by
  have hcons : ∀ (i : Insertion F) l, (i :: l).filterMap f = (f i).toList ++ l.filterMap f := fun i l => by
    cases h : f i with
    | none => rw [List.filterMap_cons_none h]; rfl
    | some b => rw [List.filterMap_cons_some h]; rfl
  have hite : ∀ (p : Prop) [Decidable p] (l : List (Insertion F)),
      (if p then l else []).filterMap f = if p then l.filterMap f else [] := fun p _ l => by
    split <;> rfl
  simp only [rows, warehouseRows, districtRows, orderRows, List.filterMap_append, List.filterMap_map,
    List.filterMap_flatMap, hcons, hite, List.filterMap_nil, List.append_nil, Function.comp_def,
    List.append_assoc, List.cons_append]

theorem rows_items : (g.rows warehouses x).filterMap Insertion.asItem = (idsTo g.numItems).map x.item := by
  simp [filterMap_rows, Insertion.asItem]

theorem rows_history : (g.rows warehouses x).filterMap (Insertion.row .history) =
    (idsTo warehouses).flatMap fun w => (idsTo g.districtsPerWarehouse).flatMap fun d =>
      (idsTo g.customersPerDistrict).map fun c => ((x.warehouse w).district d).history c := by
  have hnil : ∀ l : List ℤ, (l.flatMap fun _ => ([] : List (History F))) = [] := fun l => by
    rw [List.flatMap_eq_nil_iff]
    exact fun _ _ => rfl
  simp [filterMap_rows, Insertion.row, List.map_eq_flatMap, hnil]

/-- Elements that are found by a key of theirs. -/
theorem exists_at_iff {ι R : Type} (S : ι → Prop) (f : ι → R) {e : R → ι} (h : ∀ a, S a → e (f a) = a)
    {a : ι} {r : R} : (e r = a ∧ ∃ a', S a' ∧ r = f a') ↔ S a ∧ f a = r := by
  constructor
  · rintro ⟨rfl, a', ha', rfl⟩
    rw [h a' ha']
    exact ⟨ha', rfl⟩
  · rintro ⟨ha, rfl⟩
    exact ⟨h a ha, a, ha, rfl⟩

section Makes

variable [Money F]

theorem Makes.at (hx : g.Makes warehouses x) {w : ℤ} (hw : w ∈ idsTo warehouses) :
    g.MakesWarehouse w (x.warehouse w) := hx.warehouse w (mem_idsTo.mp hw).1 (mem_idsTo.mp hw).2

theorem MakesWarehouse.stockAt {w : ℤ} {y : WarehouseData F} (hy : g.MakesWarehouse w y) {i : ℤ}
    (hi : i ∈ idsTo g.numItems) : MakesStock w i (y.stock i) := hy.stock i (mem_idsTo.mp hi).1 (mem_idsTo.mp hi).2

theorem MakesWarehouse.at {w : ℤ} {y : WarehouseData F} (hy : g.MakesWarehouse w y) {d : ℤ}
    (hd : d ∈ idsTo g.districtsPerWarehouse) : g.MakesDistrict w d (y.district d) :=
  hy.district d (mem_idsTo.mp hd).1 (mem_idsTo.mp hd).2

theorem MakesDistrict.customerAt {w d : ℤ} {y : DistrictData F} (hy : g.MakesDistrict w d y) {c : ℤ}
    (hc : c ∈ idsTo g.customersPerDistrict) : MakesCustomer w d c (y.customer c) :=
  hy.customer c (mem_idsTo.mp hc).1 (mem_idsTo.mp hc).2

theorem MakesDistrict.orderAt {w d : ℤ} {y : DistrictData F} (hy : g.MakesDistrict w d y) {o : ℤ}
    (ho : o ∈ idsTo g.customersPerDistrict) : g.MakesOrder w d o (y.order o) :=
  (hy.order o (mem_idsTo.mp ho).1 (mem_idsTo.mp ho).2).1

theorem MakesOrder.lineAt {w d o : ℤ} {y : OrderData F} (hy : g.MakesOrder w d o y) {n : ℤ}
    (hn : n ∈ idsTo y.order.oOlCnt.toNat) : g.MakesLine w d o n (y.line n) := by
  have := mem_idsTo.mp hn
  have hcnt := hy.olCnt.1
  exact hy.line n this.1 (by omega)

/-- **The rows of a kind.** -/
theorem mem_rows_iff (hx : g.Makes warehouses x) {k : Kind} (hk : k ≠ .history) {id : RowId k} {r : Row F k} :
    rowId k r = id ∧ r ∈ (g.rows warehouses x).filterMap (Insertion.row k) ↔ g.rowOf warehouses x k id = some r := by
  rw [filterMap_rows]
  cases k with
  | history => exact absurd rfl hk
  | warehouse =>
    have hat := exists_at_iff (fun w => w ∈ idsTo warehouses) (fun w => (x.warehouse w).warehouse)
      (e := rowId .warehouse) (fun w hw => (hx.at hw).id) (a := id) (r := r)
    simpa [Insertion.row, rowOf] using hat
  | stock =>
    obtain ⟨w, i⟩ := id
    have hat := exists_at_iff (fun a : ℤ × ℤ => a.1 ∈ idsTo warehouses ∧ a.2 ∈ idsTo g.numItems)
      (fun a => (x.warehouse a.1).stock a.2) (e := rowId (F := F) .stock)
      (fun a ha => ((hx.at ha.1).stockAt ha.2).id) (a := (w, i)) (r := r)
    simpa [Insertion.row, rowOf, and_assoc, eq_comm] using hat
  | district =>
    obtain ⟨w, d⟩ := id
    have hat := exists_at_iff (fun a : ℤ × ℤ => a.1 ∈ idsTo warehouses ∧ a.2 ∈ idsTo g.districtsPerWarehouse)
      (fun a => ((x.warehouse a.1).district a.2).district) (e := rowId .district)
      (fun a ha => ((hx.at ha.1).at ha.2).id) (a := (w, d)) (r := r)
    simpa [Insertion.row, rowOf, and_assoc] using hat
  | customer =>
    obtain ⟨w, d, c⟩ := id
    have hat := exists_at_iff (fun a : ℤ × ℤ × ℤ => a.1 ∈ idsTo warehouses ∧
        a.2.1 ∈ idsTo g.districtsPerWarehouse ∧ a.2.2 ∈ idsTo g.customersPerDistrict)
      (fun a => ((x.warehouse a.1).district a.2.1).customer a.2.2) (e := rowId .customer)
      (fun a ha => (((hx.at ha.1).at ha.2.1).customerAt ha.2.2).id) (a := (w, d, c)) (r := r)
    simpa [Insertion.row, rowOf, and_assoc] using hat
  | order =>
    obtain ⟨w, d, o⟩ := id
    have hat := exists_at_iff (fun a : ℤ × ℤ × ℤ => a.1 ∈ idsTo warehouses ∧
        a.2.1 ∈ idsTo g.districtsPerWarehouse ∧ a.2.2 ∈ idsTo g.customersPerDistrict)
      (fun a => (((x.warehouse a.1).district a.2.1).order a.2.2).order) (e := rowId (F := F) .order)
      (fun a ha => (((hx.at ha.1).at ha.2.1).orderAt ha.2.2).id) (a := (w, d, o)) (r := r)
    simpa [Insertion.row, rowOf, and_assoc] using hat
  | newOrder =>
    obtain ⟨w, d, o⟩ := id
    have hat := exists_at_iff (fun a : ℤ × ℤ × ℤ => a.1 ∈ idsTo warehouses ∧
        a.2.1 ∈ idsTo g.districtsPerWarehouse ∧ a.2.2 ∈ idsTo g.customersPerDistrict ∧ g.IsNew a.2.2)
      (fun a => (⟨a.1, a.2.1, a.2.2⟩ : NewOrder)) (e := rowId (F := F) .newOrder)
      (fun a _ => rfl) (a := (w, d, o)) (r := r)
    simpa [Insertion.row, rowOf, and_assoc] using hat
  | orderLine =>
    obtain ⟨w, d, o, n⟩ := id
    have hat := exists_at_iff (fun a : ℤ × ℤ × ℤ × ℤ => a.1 ∈ idsTo warehouses ∧
        a.2.1 ∈ idsTo g.districtsPerWarehouse ∧ a.2.2.1 ∈ idsTo g.customersPerDistrict ∧
          a.2.2.2 ∈ idsTo (((x.warehouse a.1).district a.2.1).order a.2.2.1).order.oOlCnt.toNat)
      (fun a => (((x.warehouse a.1).district a.2.1).order a.2.2.1).line a.2.2.2) (e := rowId .orderLine)
      (fun a ha => ((((hx.at ha.1).at ha.2.1).orderAt ha.2.2.1).lineAt ha.2.2.2).id) (a := (w, d, o, n)) (r := r)
    simpa [Insertion.row, rowOf, and_assoc, eq_comm] using hat

theorem Makes.keyed (hx : g.Makes warehouses x) : ∀ i ∈ g.rows warehouses x, i.Keyed := by
  intro i hi
  cases i with
  | warehouse w =>
    have hmem : w ∈ (g.rows warehouses x).filterMap (Insertion.row .warehouse) :=
      List.mem_filterMap.mpr ⟨_, hi, rfl⟩
    have hrow := (mem_rows_iff hx (by decide)).mp ⟨rfl, hmem⟩
    rw [rowOf] at hrow
    split at hrow
    · next hw =>
      have hpos : 1 ≤ w.wId := (mem_idsTo.mp hw).1
      exact fun h => by omega
    · exact absurd hrow (by simp)
  | _ => trivial

end Makes

/-! ### The ids -/

section Ids

variable {w d c o : ℤ}

theorem validDistrict_of_mem (hd : d ∈ idsTo g.districtsPerWarehouse) : validDistrict d := by
  have := mem_idsTo.mp hd
  have := g.districts_range.2
  simp only [validDistrict, District.numPerWarehouse]
  omega

theorem validCustomer_of_mem (hc : c ∈ idsTo g.customersPerDistrict) : validCustomer c := by
  have := mem_idsTo.mp hc
  have := g.customers_range.2
  simp only [validCustomer, Customer.numPerDistrict]
  omega

theorem validOrder_of_mem (ho : o ∈ idsTo g.customersPerDistrict) :
    validOrder o ∧ orderKeyFits w d o ∧ ∀ n, orderLineKeyFits w d o n := by
  have := mem_idsTo.mp ho
  have := g.customers_range.2
  simp only [validOrder, Order.maxOrderId, orderKeyFits, orderLineKeyFits]
  exact ⟨by omega, by omega, fun n => by omega⟩

variable [Money F]

theorem Makes.validWarehouse (hx : g.Makes warehouses x) (hw : w ∈ idsTo warehouses) : validWarehouse w := by
  have := mem_idsTo.mp hw
  have := hx.warehouses_le (by omega)
  simp only [TpccBench.validWarehouse, Warehouse.maxWarehouseId]
  omega

/-- The customers of the orders are customers. -/
theorem MakesDistrict.customer_of_order {y : DistrictData F} (hy : g.MakesDistrict w d y)
    (ho : o ∈ idsTo g.customersPerDistrict) : (y.order o).order.oCId ∈ idsTo g.customersPerDistrict := by
  have hmem := List.mem_of_getElem? (hy.order o (mem_idsTo.mp ho).1 (mem_idsTo.mp ho).2).2
  exact hy.permutation.mem_iff.mp hmem

end Ids

/-! ### The tables -/

/-- **The loaded tables**: a load has completed. -/
def Loads [Money F] (g : TPCCGenerator) (warehouses : ℕ) (t : Tables F) : Prop :=
  ∃ tries drawn l, g.load tries warehouses ⟨Tables.empty, drawn⟩ = some ((), l) ∧ l.tables = t

/-- **What a load has made.** -/
theorem Loads.exists_db [Money F] {t : Tables F} (h : g.Loads warehouses t) :
    t.Sound ∧ ∃ x, g.Makes warehouses x ∧ t.db = g.db warehouses x := by
  obtain ⟨tries, drawn, l, hrun, rfl⟩ := h
  obtain ⟨is, ⟨x, hx, rfl⟩, hins⟩ := (load_emits False.elim : Emits False _ _).of_eq_some hrun
  obtain ⟨hs, hdb⟩ := insertAll_onDb Tables.empty_sound hins
  have hadds := insertions_adds (hdb hx.keyed)
  refine ⟨hs, x, hx, Db.ext ?_ ?_ ?_⟩
  · rw [hadds.items, rows_items]
    rfl
  · refine funext fun k => funext fun id => ?_
    by_cases hk : k = .history
    · subst hk
      rfl
    · refine Option.ext fun r => ?_
      rw [hadds.row hk, Tables.empty_row, mem_rows_iff hx hk]
      simp [db]
  · rw [hadds.history, rows_history]
    rfl

/-! ### A small load -/

/-- A generator of one item, and one customer in each district. -/
def smallGenerator : TPCCGenerator := cycling 0 1 1 (by decide) (by decide)

/-- The load of one warehouse. -/
def generated : Option (Unit × Load ℚ) := smallGenerator.load 2 1 ⟨Tables.empty, 0⟩

theorem generated_isSome : generated.isSome := by decide +kernel

/-- What it has loaded. -/
def generatedTables : Tables ℚ := (generated.get generated_isSome).2.tables

theorem generatedTables_loads : smallGenerator.Loads 1 generatedTables := by
  obtain ⟨⟨_, l⟩, hl⟩ := Option.isSome_iff_exists.mp generated_isSome
  refine ⟨2, 0, l, hl, ?_⟩
  rw [generatedTables, Option.get_of_eq_some _ hl]

end TPCCGenerator

end TpccBench
