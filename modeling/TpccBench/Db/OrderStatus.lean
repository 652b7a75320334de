import TpccBench.Db.Book
import TpccBench.Db.LowStock

/-!
# Order status on the database

`orderStatus` reports the last order of a customer, its carrier and its lines. On tables whose
districts are in order it always ends, and what it reports is the entry of the order book with the
greatest id (`TpccBench.Tables.Sound.orderStatus_spec`).
-/

namespace TpccBench

open Prog

variable {F : Type} {t : Tables F} {w d c o : ℤ}

/-! ### Live orders are those of the database -/

theorem Tables.LiveOrder.row (h : t.store.Linked (schema F)) {p : Ptr} {order : Order} (hlive : t.LiveOrder p order) :
    t.lookup .order (order.oWId, order.oDId, order.oId) = some p ∧
      t.db.row .order (order.oWId, order.oDId, order.oId) = some order := by
  obtain ⟨⟨key, hkey⟩, hcell⟩ := hlive
  obtain ⟨order', primary, secondary, hcell', hprim, -, -, hfind, -⟩ := order_of_find (Or.inl rfl) h hkey
  obtain rfl := Option.some.inj (hcell.symm.trans hcell')
  have hlook : t.lookup .order (order.oWId, order.oDId, order.oId) = some p := by
    have hprim : TpccBench.primary .order (order.oWId, order.oDId, order.oId) = some (.tree .orders, primary) := by
      rw [TpccBench.primary, hprim]
      rfl
    exact (lookup_of_primary hprim).trans hfind
  exact ⟨hlook, (row_of_lookup_eq_some hlook).trans hcell⟩

theorem Tables.liveOrder_of_row {order : Order} (hrow : t.db.row .order (w, d, o) = some order) :
    ∃ p, t.LiveOrder p order := by
  obtain ⟨p, hlook, hcell⟩ := lookup_of_row hrow
  obtain ⟨l, hl, hidx⟩ := Option.bind_eq_some_iff.mp hlook
  obtain ⟨key, -, rfl⟩ := Option.map_eq_some_iff.mp hl
  exact ⟨p, ⟨key, hidx⟩, hcell⟩

/-- **The last order of a customer** who has one. -/
theorem Op.findLastOrderByCustomer_row (ht : t.Sound) (hw : validWarehouse w) (hd : validDistrict d)
    (hc : validCustomer c) {order : Order} (hrow : t.db.row .order (w, d, o) = some order) (hcid : order.oCId = c)
    (hlast : ∀ o' order', t.db.row .order (w, d, o') = some order' → order'.oCId = c → o' ≤ o) :
    ∃ p, findLastOrderByCustomer w d c t = some (some p, t) ∧ deref .order (some p) t = some (order, t) := by
  have hid : (order.oWId, order.oDId, order.oId) = (w, d, o) := ht.keyed.ids hrow
  simp only [Prod.mk.injEq] at hid
  obtain ⟨p₀, hlive⟩ := Tables.liveOrder_of_row hrow
  rcases findLastOrderByCustomer_cases ht.linked hw hd hc with
    ⟨p, hfind, order', hlive', ⟨hw', hd', hc'⟩, hmax⟩ | ⟨hnone, -⟩
  · have hrow' := (hlive'.row ht.linked).2
    rw [hw', hd'] at hrow'
    have hle := hlast _ _ hrow' hc'
    have hge := hmax _ _ hlive ⟨hid.1, hid.2.1, hcid⟩
    have heq : order'.oId = o := by omega
    rw [heq] at hrow'
    obtain rfl := Option.some.inj (hrow.symm.trans hrow')
    refine ⟨p, hfind, ?_⟩
    rw [deref_apply]
    exact Option.map_eq_some_iff.mpr ⟨order, hlive'.2, rfl⟩
  · exact absurd ⟨hid.1, hid.2.1, hcid⟩ (hnone p₀ order hlive)

/-! ### What is reported -/

/-- What is reported of a line. -/
def OrderLine.subset (ol : OrderLine F) : OrderLineSubset F :=
  ⟨ol.olIId, ol.olSupplyWId, ol.olQuantity, ol.olAmount, ol.olDeliveryD⟩

/-- What is reported of a customer, an order, and its lines. -/
def OrderStatusOutput.of (cust : Customer F) (order : Order) (lines : List (OrderLine F)) : OrderStatusOutput F where
  cId := cust.cId
  cBalance := cust.cBalance
  oId := order.oId
  oCarrierId := order.oCarrierId
  lines := lines.map OrderLine.subset
  cFirst := cust.cFirst
  cMiddle := cust.cMiddle
  cLast := cust.cLast
  oEntryD := order.oEntryD

theorem Op.orderStatusLine_apply {n : ℤ} {line : OrderLine F} (hline : t.db.row .orderLine (w, d, o, n) = some line) :
    orderStatusLine w d o n t = some (line.subset, t) := by
  obtain ⟨p, hfind, hread⟩ := find_deref (Shows.findOrderLine_finds w d o n) hline
  rw [orderStatusLine, bind_apply, hfind, Option.bind_some, bind_apply, hread]
  rfl

/-- **Order status** of a customer whose last order has its lines, and no others. -/
theorem Op.orderStatus_apply (ht : t.Sound) {cust : Customer F} {order : Order} {line : ℕ → OrderLine F}
    (hcust : t.db.row .customer (w, d, c) = some cust) (hrow : t.db.row .order (w, d, o) = some order)
    (hcid : order.oCId = c)
    (hlast : ∀ o' order', t.db.row .order (w, d, o') = some order' → order'.oCId = c → o' ≤ o)
    (hcnt : 0 ≤ order.oOlCnt)
    (hline : ∀ i < order.oOlCnt.toNat, t.db.row .orderLine (w, d, o, (i : ℤ) + 1) = some (line i))
    (hnone : ∀ n : ℕ, order.oOlCnt < n → ¬t.db.HasLine w d o n)
    (hcan : ∀ n : ℕ, 1 ≤ n → n ≤ 15 → Db.CanFind w d o n) :
    orderStatus w d c t =
      some (.of cust order ((List.range order.oOlCnt.toNat).map line), t) := by
  obtain ⟨l, hl⟩ := Option.isSome_iff_exists.mp (ht.keyed.keys hcust)
  obtain ⟨key, hkey, -⟩ := Option.map_eq_some_iff.mp hl
  obtain ⟨⟨hw, hd, hc⟩, -⟩ := makeCustomerKey_eq_some.mp hkey
  obtain ⟨p, hfind, hread⟩ := find_deref (Shows.findCustomer_finds w d c) hcust
  obtain ⟨q, hfindLast, hreadOrder⟩ := findLastOrderByCustomer_row ht hw hd hc hrow hcid hlast
  have hcustId : (cust.cWId, cust.cDId, cust.cId) = (w, d, c) := ht.keyed.ids hcust
  have horderId : (order.oWId, order.oDId, order.oId) = (w, d, o) := ht.keyed.ids hrow
  simp only [Prod.mk.injEq] at hcustId horderId
  have hassert : assert (S := Tables F) (0 ≤ order.oOlCnt) t = some ((), t) := if_pos hcnt
  have hrange : (do let i ← List.range order.oOlCnt.toNat; pure (i : ℤ)) =
      (List.range order.oOlCnt.toNat).map fun i : ℕ => (i : ℤ) := (List.map_eq_flatMap).symm
  have hlines : ((List.range order.oOlCnt.toNat).map fun i : ℕ => (i : ℤ)).mapM
      (fun i => orderStatusLine w d o (i + 1)) t =
        some ((List.range order.oOlCnt.toNat).map fun i => (line i).subset, t) := by
    rw [List.mapM_map, mapM_look (p := fun _ => True) (g := fun i => (line i).subset), if_pos fun _ _ => trivial]
    intro i hi
    rw [if_pos trivial]
    exact orderStatusLine_apply (hline i (List.mem_range.mp hi))
  have hothers : ((List.range' (order.oOlCnt.toNat + 1) (Order.maxOlCnt - order.oOlCnt).toNat).forM
      fun n : ℕ => findOrderLine w d o n >>= fun p => assert (p = none) : Op F Unit) t = some ((), t) := by
    rw [forM_look _ fun n _ => assert_missing ht, if_pos fun n hn => ?_]
    obtain ⟨i, hi, rfl⟩ := List.mem_range'.mp hn
    rw [Order.maxOlCnt] at hi
    exact ⟨hcan _ (by omega) (by omega), hnone _ (by push_cast; omega)⟩
  rw [orderStatus, bind_apply, hfind, Option.bind_some, internalOrderStatus, bind_apply, hread, Option.bind_some]
  rw [hcustId.1, hcustId.2.1, hcustId.2.2, bind_apply, hfindLast, Option.bind_some, bind_apply, hreadOrder,
    Option.bind_some, bind_apply, hassert, Option.bind_some, horderId.2.2, hrange, bind_apply, hlines, Option.bind_some,
    bind_apply, hothers, Option.bind_some]
  simp only [OrderStatusOutput.of, hcustId.2.2, horderId.2.2, List.map_map]
  rfl

/-- The order that is reported, but for its delivery. -/
def OrderStatusOutput.given (out : OrderStatusOutput F) : GivenOrder F :=
  ⟨out.cId, out.lines.length, out.lines.map fun l => some ⟨l.olIId, l.olSupplyWId, l.olQuantity, l.olAmount⟩⟩

/-- **Order status in a district that is in order**: the last order of the customer in the book, with
its carrier and its dates exactly if it is not in the queue. -/
theorem Tables.Sound.orderStatus_spec [Money F] (ht : t.Sound) {k n : ℤ} (hp : t.db.Pipeline w d k n)
    (hcust : (t.db.row .customer (w, d, c)).isSome) {g : GivenOrder F} (hbook : t.db.book w d o = some g)
    (hcid : g.oCId = c) (hcnt : 0 ≤ g.oOlCnt)
    (hlast : ∀ o' g', t.db.book w d o' = some g' → g'.oCId = c → o' ≤ o) (hle : o ≤ 143164) :
    ∃ out, Op.orderStatus w d c t = some (out, t) ∧ out.oId = o ∧ out.given = g ∧
      (out.oCarrierId ≠ Order.nullCarrierId ↔ o < k) ∧ ∀ l ∈ out.lines, l.olDeliveryD.chars ≠ [] ↔ o < k := by
  obtain ⟨cust, hcust⟩ := Option.isSome_iff_exists.mp hcust
  obtain ⟨order, hrow, rfl⟩ := Option.map_eq_some_iff.mp hbook
  have hcid : order.oCId = c := hcid
  have hcnt : 0 ≤ order.oOlCnt := hcnt
  obtain ⟨hw, hd, ho, -⟩ := primary_order_iff.mp (ht.keyed.keys hrow)
  let line (i : ℕ) : OrderLine F :=
    (t.db.row .orderLine (w, d, o, (i : ℤ) + 1)).getD ⟨0, 0, 0, 0, 0, 0, 0, 0, .empty, .empty⟩
  have hline : ∀ i < order.oOlCnt.toNat, t.db.row .orderLine (w, d, o, (i : ℤ) + 1) = some (line i) := fun i hi => by
    obtain ⟨l, hl⟩ := Option.isSome_iff_exists.mp ((hp.line hrow ((i : ℤ) + 1)).mpr (by omega))
    simp only [line, hl, Option.getD_some]
  have hrun := Op.orderStatus_apply ht hcust hrow hcid
    (fun o' order' ho' hc' => hlast o' _ (Option.map_eq_some_iff.mpr ⟨order', ho', rfl⟩) hc') hcnt hline
    (fun m hm hhas => by have := (hp.line hrow (m : ℤ)).mp hhas; omega)
    (fun m hm hm' => Db.canFind_of_fits hw hd ho (by rw [validLine, Order.maxOlCnt]; omega)
      (orderLineKeyFits_of_le hle _ _ _))
  have hcustId : (cust.cWId, cust.cDId, cust.cId) = (w, d, c) := ht.keyed.ids hcust
  have horderId : (order.oWId, order.oDId, order.oId) = (w, d, o) := ht.keyed.ids hrow
  simp only [Prod.mk.injEq] at hcustId horderId
  refine ⟨_, hrun, horderId.2.2, ?_, ?_, fun l hl => ?_⟩
  · have hlen : ((List.range order.oOlCnt.toNat).length : ℤ) = order.oOlCnt := by
      rw [List.length_range]
      omega
    simp only [OrderStatusOutput.given, OrderStatusOutput.of, hcustId.2.2, hcid, List.length_map, hlen, List.map_map]
    refine congrArg (GivenOrder.mk c order.oOlCnt) (List.map_congr_left fun i hi => ?_)
    rw [hline i (List.mem_range.mp hi)]
    rfl
  · rw [← not_le]
    exact not_congr (hp.carrier hrow)
  · simp only [OrderStatusOutput.of, List.map_map, List.mem_map, List.mem_range] at hl
    obtain ⟨i, hi, rfl⟩ := hl
    rw [← not_le]
    exact not_congr (hp.deliveryD (hline i hi))

end TpccBench
