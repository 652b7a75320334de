import TpccBench.Tables.Agreement

/-!
# The transactions that only read

Order status and stock level, and the search for a customer's last order that order status
starts with. The search is for the greatest key below the next customer's keys, so where the
customer has no order it meets that of another one
(`TpccBench.findLastOrderByCustomer_iff`).
-/

namespace TpccBench

open Prog

variable {F : Type} {t t' : Tables F}

/-! ### The search in a tree -/

namespace Tree

/-- `findLastLessThan`, and what its output variable holds before and after. -/
def findLastLessThan (t : Tree) (key : ℤ) (value : Option Ptr) : Option (Bool × Option Ptr) :=
  (t.1.findLastLessThan key value 0).map fun r => (r.1, r.2.1)

theorem mem_live {t : Tree} {k : ℤ} {p : Ptr} :
    (k, p) ∈ Assoc.live t.1.contents ↔ t.find k = some p := by
  have hs : Assoc.Sorted t.1.contents := Node.sorted t.1.depth t.2
  rw [Assoc.mem_live, find, BPlusTree.find_eq t.2]
  constructor
  · intro hm
    rw [Assoc.lookup_of_mem hs hm]
    rfl
  · intro hl
    exact Assoc.mem_of_lookup (Option.join_eq_some_iff.mp hl)

/-- The search finds the last key below another. -/
theorem findLastLessThan_spec (t : Tree) (key : ℤ) (value : Option Ptr) :
    (t.findLastLessThan key value = some (false, value) ∧ ∀ k p, t.find k = some p → key ≤ k) ∨
      ∃ k p, t.findLastLessThan key value = some (true, some p) ∧ t.find k = some p ∧ k < key ∧
        ∀ k' p', t.find k' = some p' → k' < key → k' ≤ k := by
  have hs : Assoc.Sorted (Assoc.live t.1.contents) :=
    Assoc.sorted_live (Node.sorted t.1.depth t.2)
  have hspec := t.1.findLastLessThan_spec t.2 key value 0
  cases hlast : Assoc.lastBelow key (Assoc.live t.1.contents) with
  | none =>
    rw [hlast] at hspec
    refine Or.inl ⟨by rw [findLastLessThan, hspec]; rfl, fun k p hp => ?_⟩
    exact Assoc.lastBelow_eq_none hlast (k, p) (mem_live.mpr hp)
  | some e =>
    obtain ⟨k, p⟩ := e
    rw [hlast] at hspec
    obtain ⟨hmem, hlt⟩ := Assoc.mem_of_lastBelow hlast
    refine Or.inr ⟨k, p, by rw [findLastLessThan, hspec]; rfl, mem_live.mp hmem, hlt, ?_⟩
    exact fun k' p' hp' hlt' => Assoc.le_of_lastBelow hs hlast (k', p') (mem_live.mpr hp') hlt'

end Tree

namespace Op

/-- `BPlusTree::findLastLessThan` on a member. -/
def findLastLessThan (n : TreeName) (key : ℤ) (value : Option Ptr) : Op F (Bool × Option Ptr) :=
  fun t => ((t.tree n).findLastLessThan key value).map fun r => (r, t)

/-- `findLastOrderByCustomer`. -/
def findLastOrderByCustomer (wId dId cId : ℤ) : Op F (Option Ptr) := do
  let key ← makeOrderByCustomerKey .checked wId dId cId 1
  let key := key + 2 ^ 32
  assert (0 < key)
  let (found, order) ← findLastLessThan .ordersByCustomer key none
  if found then
    let o : Order ← deref .order order
    assert (o.oWId = wId ∧ o.oDId = dId ∧ o.oCId = cId)
    return order
  else return order

end Op

/-! ### Order status -/

/-- `OrderStatusOutput::OrderLineSubset`. -/
structure OrderLineSubset (F : Type) where
  olIId : ℤ
  olSupplyWId : ℤ
  olQuantity : ℤ
  olAmount : F
  olDeliveryD : CString datetimeSize

/-- `OrderStatusOutput`. -/
structure OrderStatusOutput (F : Type) where
  cId : ℤ
  cBalance : F
  oId : ℤ
  oCarrierId : ℤ
  lines : List (OrderLineSubset F)
  cFirst : CString 10
  cMiddle : CString 2
  cLast : CString 16
  oEntryD : CString datetimeSize

namespace Op

/-- One turn of the loop of `internalOrderStatus`. -/
def orderStatusLine (wId dId oId lineNumber : ℤ) : Op F (OrderLineSubset F) := do
  let line ← findOrderLine wId dId oId lineNumber
  let l : OrderLine F ← deref .orderLine line
  return ⟨l.olIId, l.olSupplyWId, l.olQuantity, l.olAmount, l.olDeliveryD⟩

/-- `internalOrderStatus`. It sets all of its output, so what that held does not matter. -/
def internalOrderStatus (customer : Option Ptr) : Op F (OrderStatusOutput F) := do
  let c : Customer F ← deref .customer customer
  let order ← findLastOrderByCustomer c.cWId c.cDId c.cId
  let o : Order ← deref .order order
  -- `resize` throws where the length is negative
  assert (0 ≤ o.oOlCnt)
  let lines ← (List.range o.oOlCnt.toNat).mapM fun i => orderStatusLine c.cWId c.cDId o.oId (i + 1)
  (List.range' (o.oOlCnt.toNat + 1) (Order.maxOlCnt - o.oOlCnt).toNat).forM fun n => do
    assert ((← findOrderLine c.cWId c.cDId o.oId n) = none)
  return {
    cId := c.cId
    cBalance := c.cBalance
    oId := o.oId
    oCarrierId := o.oCarrierId
    lines
    cFirst := c.cFirst
    cMiddle := c.cMiddle
    cLast := c.cLast
    oEntryD := o.oEntryD }

/-- `orderStatus` by id. -/
def orderStatus (warehouseId districtId customerId : ℤ) : Op F (OrderStatusOutput F) := do
  internalOrderStatus (← findCustomer warehouseId districtId customerId)

/-- `orderStatus` by last name. -/
def orderStatusByName (warehouseId districtId : ℤ) (cLast : List Char) :
    Op F (OrderStatusOutput F) := do
  internalOrderStatus (← findCustomerByName warehouseId districtId cLast)

/-! ### Stock level -/

/-- `STOCK_LEVEL_ORDERS`. -/
def stockLevelOrders : ℕ := 20

/-- The inner loop of `stockLevel` from a line number on, with what it appends to `s_i_ids`. -/
def stockLevelLines (warehouseId districtId threshold orderId : ℤ) : List ℕ → Op F (List ℤ)
  | [] => return []
  | lineNumber :: lineNumbers => do
    match ← findOrderLine warehouseId districtId orderId lineNumber with
    | none =>
      -- the loop in debug mode counts `line_number` up, and tests the same number each time
      (List.range (Order.maxOlCnt - lineNumber).toNat).forM fun _ => do
        assert ((← findOrderLine warehouseId districtId orderId (lineNumber + 1)) = none)
      return []
    | some line => do
      let l : OrderLine F ← deref .orderLine (some line)
      let stock ← findStock warehouseId l.olIId
      let s : Stock ← deref .stock stock
      let sIIds ← stockLevelLines warehouseId districtId threshold orderId lineNumbers
      return if s.sQuantity < threshold then l.olIId :: sIIds else sIIds

/-- How many distinct ids there are, counted in sorted order. -/
def numDistinct (sIIds : List ℤ) : ℤ :=
  ((sIIds.mergeSort (· ≤ ·)).foldl
    (fun (r : ℤ × ℤ) sIId => if sIId ≠ r.1 then (sIId, r.2 + 1) else r) (-1, 0)).2

/-- `stockLevel`. -/
def stockLevel (warehouseId districtId threshold : ℤ) : Op F ℤ := do
  let d ← findDistrict warehouseId districtId
  let d : District F ← deref .district d
  let oId := d.dNextOId
  let sIIds ← (List.range stockLevelOrders).mapM fun i =>
    stockLevelLines warehouseId districtId threshold (oId - stockLevelOrders + i) (List.range' 1 15)
  return numDistinct sIIds.flatten

end Op

/-! ### The last order of a customer -/

/-- A live order: one that the indexes lead to. -/
def Tables.LiveOrder (t : Tables F) (p : Ptr) (o : Order) : Prop :=
  t.Holds .orders p ∧ t.cell .order p = some o

/-- The order is the customer's. -/
def Order.Of (w d c : ℤ) (o : Order) : Prop := o.oWId = w ∧ o.oDId = d ∧ o.oCId = c

/-- The order is of a customer before this one. -/
def Order.Before (w d c : ℤ) (o : Order) : Prop :=
  o.oWId < w ∨ o.oWId = w ∧ (o.oDId < d ∨ o.oDId = d ∧ o.oCId < c)

/-- The customer's live order with the greatest id, or null where there is none. -/
def Tables.IsLastOrder (t : Tables F) (w d c : ℤ) : Option Ptr → Prop
  | none => ∀ p o, t.LiveOrder p o → ¬o.Of w d c
  | some p => ∃ o, t.LiveOrder p o ∧ o.Of w d c ∧
      ∀ p' o', t.LiveOrder p' o' → o'.Of w d c → o'.oId ≤ o.oId

/-- Live orders are the ones in the customers' index. -/
theorem Tables.liveOrder_iff (h : t.store.Linked (schema F)) {p : Ptr} {o : Order} :
    t.LiveOrder p o ↔ t.cell .order p = some o ∧
      ∃ key, makeOrderByCustomerKey .checked o.oWId o.oDId o.oCId o.oId = some key ∧
        (t.tree .ordersByCustomer).find key = some p := by
  constructor
  · rintro ⟨⟨key, hkey⟩, ho⟩
    obtain ⟨o', primary, secondary, ho', -, hsec, -, -, hfind⟩ := order_of_find (Or.inl rfl) h hkey
    obtain rfl := Option.some.inj (ho.symm.trans ho')
    exact ⟨ho, secondary, hsec, hfind⟩
  · rintro ⟨ho, key, hkey, hfind⟩
    obtain ⟨o', primary, secondary, ho', -, -, -, hfind', -⟩ := order_of_find (Or.inr rfl) h hfind
    exact ⟨⟨primary, hfind'⟩, ho⟩

/-- The keys below the one that is looked for: those of the customer, and of the customers
before. -/
theorem Order.key_lt_iff {w d c k : ℤ} (hw : validWarehouse w) (hd : validDistrict d)
    (hc : validCustomer c) {o : Order}
    (hk : makeOrderByCustomerKey .checked o.oWId o.oDId o.oCId o.oId = some k) :
    k < ((w * 10 + d) * 3000 + c) * 2 ^ 32 + 1 + 2 ^ 32 ↔ o.Of w d c ∨ o.Before w d c := by
  obtain ⟨⟨⟨hw₁, hw₂⟩, ⟨hd₁, hd₂⟩, ⟨hc₁, hc₂⟩, ⟨ho₁, ho₂⟩⟩, rfl⟩ := makeOrderByCustomerKey_eq_some.mp hk
  obtain ⟨hw, hw'⟩ := hw
  obtain ⟨hd, hd'⟩ := hd
  obtain ⟨hc, hc'⟩ := hc
  simp only [Warehouse.maxWarehouseId, District.numPerWarehouse, Customer.numPerDistrict,
    Order.maxOrderId, Of, Before] at *
  constructor
  · intro hlt
    have htop : (o.oWId * 10 + o.oDId) * 3000 + o.oCId ≤ (w * 10 + d) * 3000 + c := by omega
    omega
  · rintro (⟨rfl, rfl, rfl⟩ | h)
    · omega
    · have htop : (o.oWId * 10 + o.oDId) * 3000 + o.oCId < (w * 10 + d) * 3000 + c := by omega
      omega

/-- Keys go up with the customers, and with the ids of a customer's orders. -/
theorem Order.key_le {w d c k k' : ℤ} (hw : validWarehouse w) (hd : validDistrict d)
    (hc : validCustomer c) {o o' : Order}
    (hk : makeOrderByCustomerKey .checked o.oWId o.oDId o.oCId o.oId = some k)
    (hk' : makeOrderByCustomerKey .checked o'.oWId o'.oDId o'.oCId o'.oId = some k')
    (hle : k' ≤ k) (ho' : o'.Of w d c) : (o.Of w d c → o'.oId ≤ o.oId) ∧ ¬o.Before w d c := by
  obtain ⟨⟨⟨hw₁, hw₂⟩, ⟨hd₁, hd₂⟩, ⟨hc₁, hc₂⟩, ⟨ho₁, ho₂⟩⟩, rfl⟩ := makeOrderByCustomerKey_eq_some.mp hk
  obtain ⟨⟨-, -, -, ⟨ho₁', ho₂'⟩⟩, rfl⟩ := makeOrderByCustomerKey_eq_some.mp hk'
  obtain ⟨rfl, rfl, rfl⟩ := ho'
  obtain ⟨hw, hw'⟩ := hw
  obtain ⟨hd, hd'⟩ := hd
  obtain ⟨hc, hc'⟩ := hc
  simp only [Warehouse.maxWarehouseId, District.numPerWarehouse, Customer.numPerDistrict,
    Order.maxOrderId, Of, Before] at *
  constructor
  · rintro ⟨hw, hd, hc⟩
    rw [hw, hd, hc] at hle
    omega
  · intro h
    have htop : (o.oWId * 10 + o.oDId) * 3000 + o.oCId < (o'.oWId * 10 + o'.oDId) * 3000 + o'.oCId := by
      omega
    omega

/-- **Where a customer's last order is looked for**: at an order of the customer, or else at
one of a customer before. -/
theorem Op.findLastOrderByCustomer_cases (h : t.store.Linked (schema F)) {w d c : ℤ}
    (hw : validWarehouse w) (hd : validDistrict d) (hc : validCustomer c) :
    (∃ p, findLastOrderByCustomer w d c t = some (some p, t) ∧ t.IsLastOrder w d c (some p)) ∨
      (∀ p o, t.LiveOrder p o → ¬o.Of w d c) ∧
        ((findLastOrderByCustomer w d c t = some (none, t) ∧
            ∀ p o, t.LiveOrder p o → ¬o.Before w d c) ∨
          findLastOrderByCustomer w d c t = none ∧ ∃ p o, t.LiveOrder p o ∧ o.Before w d c) := by
  have hkey : makeOrderByCustomerKey .checked w d c 1 = some (((w * 10 + d) * 3000 + c) * 2 ^ 32 + 1) :=
    makeOrderByCustomerKey_of_valid _ hw hd hc ⟨le_refl _, by decide⟩
  have hpos : 0 < ((w * 10 + d) * 3000 + c) * 2 ^ 32 + 1 + 2 ^ 32 := by
    have := hw.1
    have := hd.1
    have := hc.1
    omega
  rcases (t.tree .ordersByCustomer).findLastLessThan_spec
      (((w * 10 + d) * 3000 + c) * 2 ^ 32 + 1 + 2 ^ 32) none with
    ⟨hfind, hnone⟩ | ⟨k, p, hfind, hp, hlt, hgreatest⟩
  · -- nothing is before
    have hall : ∀ p o, t.LiveOrder p o → ¬(o.Of w d c ∨ o.Before w d c) := fun p o ho hor => by
      obtain ⟨-, k, hk, hp⟩ := (Tables.liveOrder_iff h).mp ho
      exact absurd ((Order.key_lt_iff hw hd hc hk).mpr hor) (hnone k p hp).not_gt
    refine Or.inr ⟨fun p o ho hof => hall p o ho (Or.inl hof), Or.inl ⟨?_, fun p o ho hbef =>
      hall p o ho (Or.inr hbef)⟩⟩
    simp only [findLastOrderByCustomer, bind_apply, lift_apply, hkey, Option.map_some, assert, if_pos hpos,
      findLastLessThan, hfind, Option.bind_some, Bool.false_eq_true, if_false, pure_apply]
  · obtain ⟨o, ho, hk⟩ := (Tables.Agree.of_linked h).ordersByCustomer hp
    have hlive : t.LiveOrder p o := (Tables.liveOrder_iff h).mpr ⟨ho, k, hk, hp⟩
    have hderef : deref .order (some p) t = some (o, t) := by
      rw [deref_apply]
      exact Option.map_eq_some_iff.mpr ⟨o, ho, rfl⟩
    have hmax : ∀ p' o', t.LiveOrder p' o' → o'.Of w d c →
        (o.Of w d c → o'.oId ≤ o.oId) ∧ ¬o.Before w d c := fun p' o' ho' hof => by
      obtain ⟨-, k', hk', hp'⟩ := (Tables.liveOrder_iff h).mp ho'
      have hlt' := (Order.key_lt_iff hw hd hc hk').mpr (Or.inl hof)
      exact Order.key_le hw hd hc hk hk' (hgreatest k' p' hp' hlt') hof
    rcases (Order.key_lt_iff hw hd hc hk).mp hlt with hof | hbef
    · refine Or.inl ⟨p, ?_, o, hlive, hof, fun p' o' ho' hof' => (hmax p' o' ho' hof').1 hof⟩
      have hof : o.oWId = w ∧ o.oDId = d ∧ o.oCId = c := hof
      simp only [findLastOrderByCustomer, bind_apply, lift_apply, hkey, Option.map_some, assert, if_pos hpos,
        findLastLessThan, hfind, Option.bind_some, if_true, hderef, if_pos hof, pure_apply]
    · have hnot : ¬(o.oWId = w ∧ o.oDId = d ∧ o.oCId = c) := by
        rintro ⟨rfl, rfl, rfl⟩
        simp [Order.Before] at hbef
      refine Or.inr ⟨fun p' o' ho' hof' => (hmax p' o' ho' hof').2 hbef, Or.inr ⟨?_, p, o, hlive, hbef⟩⟩
      simp only [findLastOrderByCustomer, bind_apply, lift_apply, hkey, Option.map_some, assert, if_pos hpos,
        findLastLessThan, hfind, Option.bind_some, if_true, hderef, if_neg hnot, Option.bind_none]

/-- **A customer's last order is found**, or null where there is none, if and only if the
customer has an order or no customer before has one. -/
theorem findLastOrderByCustomer_iff [Money F] {as : List (Action F)} {us : List (TPCCUndo F)}
    (hrun : Run.result Action.step (Tables.empty, []) as = some (t, us)) {w d c : ℤ}
    (hw : validWarehouse w) (hd : validDistrict d) (hc : validCustomer c) :
    (∃ r, Op.findLastOrderByCustomer w d c t = some (r, t) ∧ t.IsLastOrder w d c r) ↔
      (∃ p o, t.LiveOrder p o ∧ o.Of w d c) ∨ ∀ p o, t.LiveOrder p o → ¬o.Before w d c := by
  rcases Op.findLastOrderByCustomer_cases (Action.run_kept hrun).1 hw hd hc with
    ⟨p, hp, hlast⟩ | ⟨hno, ⟨hrun, hbef⟩ | ⟨hrun, p, o, ho, hbef⟩⟩
  · obtain ⟨o, ho, hof, -⟩ := id hlast
    exact ⟨fun _ => Or.inl ⟨p, o, ho, hof⟩, fun _ => ⟨some p, hp, hlast⟩⟩
  · exact ⟨fun _ => Or.inr hbef, fun _ => ⟨none, hrun, hno⟩⟩
  · constructor
    · rintro ⟨r, hr, -⟩
      rw [hrun] at hr
      exact absurd hr (by simp)
    · rintro (⟨p', o', ho', hof⟩ | hall)
      · exact absurd hof (hno p' o' ho')
      · exact absurd hbef (hall p o ho)

/-- One order, of customer 1. -/
def oneOrder : List (Action ℚ) := [.insert (.order ⟨1, 1, 1, 1, 0, 1, 1, .empty⟩)]

theorem oneOrder_run : (Run.result Action.step (Tables.empty, []) oneOrder).isSome := by decide +kernel

theorem oneOrder_last : ∃ t : Tables ℚ, ∃ r, Op.findLastOrderByCustomer 1 1 1 t = some (r, t) ∧
    t.IsLastOrder 1 1 1 r := by
  obtain ⟨⟨t, us⟩, hrun⟩ := Option.isSome_iff_exists.mp oneOrder_run
  refine ⟨t, (findLastOrderByCustomer_iff hrun (by decide) (by decide) (by decide)).mpr ?_⟩
  -- there is no customer before the first
  refine Or.inr fun p o ho hbef => ?_
  obtain ⟨-, k, hk, -⟩ := (Tables.liveOrder_iff (Action.run_kept hrun).1).mp ho
  obtain ⟨⟨hw, hd, hc, -⟩, -⟩ := makeOrderByCustomerKey_eq_some.mp hk
  have hw := hw.1
  have hd := hd.1
  have hc := hc.1
  rw [Order.Before] at hbef
  omega

/-- The search for the last order of a customer without any meets that of another customer. -/
theorem oneOrder_other : ∃ t : Tables ℚ,
    Run.result Action.step (Tables.empty, []) oneOrder = some (t, []) ∧
      (validWarehouse 1 ∧ validDistrict 1 ∧ validCustomer 2) ∧
      ¬∃ r, Op.findLastOrderByCustomer 1 1 2 t = some (r, t) ∧ t.IsLastOrder 1 1 2 r := by
  obtain ⟨⟨t, us⟩, hrun⟩ := Option.isSome_iff_exists.mp oneOrder_run
  have hus : ((Run.result Action.step (Tables.empty, []) oneOrder).map fun s => s.2.isEmpty) =
      some true := by decide +kernel
  have hnone : ((Run.result Action.step (Tables.empty, []) oneOrder).map fun s =>
      (Op.findLastOrderByCustomer 1 1 2 s.1).isNone) = some true := by decide +kernel
  rw [hrun] at hus hnone
  obtain rfl : us = [] := List.isEmpty_iff.mp (Option.some.inj hus)
  refine ⟨t, hrun, by decide, ?_⟩
  rintro ⟨r, hr, -⟩
  have hnone := Option.isNone_iff_eq_none.mp (Option.some.inj hnone)
  rw [hr] at hnone
  exact absurd hnone (by simp)

end TpccBench
