import TpccBench.Client.Model
import TpccBench.Load.Data

/-!
# What a client asks for

Whatever the generator answers, a client with constants that are not negative and fit draws a request
of warehouses, districts, customers and items that a load with the same parameters has made, and of last
names that are given to the first customers (`TpccBench.TPCCClient.request_yields`). An order has an item
that there is not exactly if it is marked for a rollback.
-/

namespace TpccBench

open Prog

variable {F : Type}

/-- The constants are not negative. -/
structure NURandC.NonNegative (c : NURandC) : Prop where
  cLast : 0 ≤ c.cLast
  cId : 0 ≤ c.cId
  olIId : 0 ≤ c.olIId

namespace TPCCClient

variable (client : TPCCClient)

/-- **The sums of `NURand` fit**, for each of the ranges that the client draws from. -/
structure SumsFit : Prop where
  cLast : client.generator.SumsFit 255 0 (min 999 (client.customersPerDistrict - 1))
  cId : client.generator.SumsFit 1023 1 client.customersPerDistrict
  olIId : client.generator.SumsFit 8191 1 client.numItems

/-- A customer that the client may name: by an id, or by the last name of one of the first customers. -/
inductive Names : CustomerChoice → Prop
  | id {c : ℤ} : c ∈ idsTo client.customersPerDistrict → Names (.id c)
  | lastName {num : ℤ} {name : CString 16} : 0 ≤ num → num ≤ min 999 ((client.customersPerDistrict : ℤ) - 1) →
    makeLastName num = some name → Names (.lastName name.chars)

/-- The lines of an order: its items are there, but for one if it is marked for a rollback. -/
structure AsksFor (items : List NewOrderItem) (rollback : Bool) : Prop where
  length : 1 ≤ items.length ∧ items.length ≤ 15
  supply (item : NewOrderItem) : item ∈ items → item.olSupplyWId ∈ idsTo client.numWarehouses
  item (item : NewOrderItem) : item ∈ items →
    item.iId ∈ idsTo client.numItems ∨ rollback = true ∧ item.iId = Item.numItems + 1
  rollback : rollback = true → ∃ item ∈ items, item.iId = Item.numItems + 1

variable {client} in
theorem AsksFor.one_le {items : List NewOrderItem} {rollback : Bool} (h : client.AsksFor items rollback) :
    ∀ item ∈ items, 1 ≤ item.iId := by
  intro item hitem
  rcases h.item item hitem with hin | ⟨-, hlast⟩
  · exact (mem_idsTo.mp hin).1
  · rw [hlast]
    omega

/-- What the client may ask for. -/
inductive Asks : Request F → Prop
  | stockLevel {w d threshold} : w ∈ idsTo client.numWarehouses → d ∈ idsTo client.districtsPerWarehouse →
    Asks (.stockLevel w d threshold)
  | orderStatus {w d who} : w ∈ idsTo client.numWarehouses → d ∈ idsTo client.districtsPerWarehouse →
    client.Names who → Asks (.orderStatus w d who)
  | delivery {w carrierId now} : w ∈ idsTo client.numWarehouses → 1 ≤ carrierId →
    Asks (.delivery w carrierId now)
  | payment {w d cW cD who hAmount now} : w ∈ idsTo client.numWarehouses →
    d ∈ idsTo client.districtsPerWarehouse → cW ∈ idsTo client.numWarehouses →
    cD ∈ idsTo client.districtsPerWarehouse → client.Names who → Asks (.payment w d cW cD who hAmount now)
  | newOrder {w d c items rollback now} : w ∈ idsTo client.numWarehouses →
    d ∈ idsTo client.districtsPerWarehouse → c ∈ idsTo client.customersPerDistrict →
    client.AsksFor items rollback → Asks (.newOrder w d c items rollback now)

/-! ### Drawing it -/

theorem generateWarehouse_yields : client.generateWarehouse.Yields True (· ∈ idsTo client.numWarehouses) := by
  have hnum := client.warehouses_range.1
  have hbound := client.boundWarehouse_range
  rw [generateWarehouse]
  refine Rx.Yields.ite (fun _ => ?_) fun hne => Rx.Yields.pure (mem_idsTo.mpr (by omega))
  exact (client.generator.draw_yields (by omega)).mono fun w hw => mem_idsTo.mpr hw

theorem generateDistrict_yields : client.generateDistrict.Yields True (· ∈ idsTo client.districtsPerWarehouse) := by
  have hnum := client.districts_range.1
  have hbound := client.boundDistrict_range
  rw [generateDistrict]
  refine Rx.Yields.ite (fun _ => ?_) fun hne => Rx.Yields.pure (mem_idsTo.mpr (by omega))
  exact (client.generator.draw_yields (by omega)).mono fun d hd => mem_idsTo.mpr hd

theorem numberExcluding_yields (random : RandomGenerator) {lower upper excluding : ℤ} (h : lower < upper)
    (hin : lower ≤ excluding ∧ excluding ≤ upper) :
    (random.numberExcluding lower upper excluding).Yields True fun n =>
      (lower ≤ n ∧ n ≤ upper) ∧ n ≠ excluding := by
  rw [RandomGenerator.numberExcluding]
  refine (Rx.Yields.assert fun _ => h).bind fun _ _ => (Rx.Yields.assert fun _ => hin).bind fun _ _ => ?_
  refine (random.draw_yields (by omega)).bind fun num hnum => ?_
  have hother : lower ≤ (if num ≥ excluding then num + 1 else num) ∧
      (if num ≥ excluding then num + 1 else num) ≤ upper ∧
      (if num ≥ excluding then num + 1 else num) ≠ excluding := by
    split <;> omega
  refine (Rx.Yields.assert fun _ => hother).bind fun _ _ => Rx.Yields.pure ?_
  exact ⟨⟨hother.1, hother.2.1⟩, hother.2.2⟩

theorem generateCustomerDistrict_yields {x wId dId : ℤ} (hw : wId ∈ idsTo client.numWarehouses)
    (hd : dId ∈ idsTo client.districtsPerWarehouse) :
    (client.generateCustomerDistrict x wId dId).Yields True fun c =>
      c.1 ∈ idsTo client.numWarehouses ∧ c.2 ∈ idsTo client.districtsPerWarehouse := by
  have hnum := client.warehouses_range.1
  rw [generateCustomerDistrict]
  refine Rx.Yields.ite (fun _ => Rx.Yields.pure ⟨hw, hd⟩) fun hremote => ?_
  have hwid := mem_idsTo.mp hw
  refine (numberExcluding_yields _ (by omega) hwid).bind fun cWId hcw => ?_
  refine (Rx.Yields.assert fun _ => hcw.2).bind fun _ _ => ?_
  exact client.generateDistrict_yields.bind fun cDId hcd => Rx.Yields.pure ⟨mem_idsTo.mpr hcw.1, hcd⟩

theorem doStockLevel_yields : (client.doStockLevel (F := F)).Yields True client.Asks := by
  rw [doStockLevel]
  refine (client.generator.draw_yields (by decide)).bind fun threshold _ => ?_
  refine client.generateWarehouse_yields.bind fun w hw => client.generateDistrict_yields.bind fun d hd => ?_
  exact Rx.Yields.pure (Asks.stockLevel hw hd)

theorem doDelivery_yields (now : Timestamp) : (client.doDelivery (F := F) now).Yields True client.Asks := by
  rw [doDelivery]
  refine (client.generator.draw_yields (by decide)).bind fun carrier hcarrier => ?_
  exact client.generateWarehouse_yields.bind fun w hw => Rx.Yields.pure (Asks.delivery hw hcarrier.1)

section Constants

variable {client} (hc : client.generator.cValues.NonNegative) (hfit : client.SumsFit)

include hc hfit

theorem generateCID_yields : client.generateCID.Yields True (· ∈ idsTo client.customersPerDistrict) := by
  have hnum := client.customers_range.1
  rw [generateCID]
  refine (client.generator.nuRand_yields (c := client.generator.cValues.cId) rfl (by decide) (by decide) (by omega)
    fun _ => ⟨hc.cId, hfit.cId⟩).mono fun c h => mem_idsTo.mpr (h hc.cId)

theorem generateItemID_yields : client.generateItemID.Yields True (· ∈ idsTo client.numItems) := by
  have hnum := client.items_range.1
  rw [generateItemID]
  refine (client.generator.nuRand_yields (c := client.generator.cValues.olIId) rfl (by decide) (by decide) (by omega)
    fun _ => ⟨hc.olIId, hfit.olIId⟩).mono fun i h => mem_idsTo.mpr (h hc.olIId)

theorem generateLastName_yields : client.generateLastName.Yields True client.Names := by
  have hnum := client.customers_range.1
  rw [generateLastName]
  refine (client.generator.lastName_yields (by omega) fun _ => ⟨hc.cLast, hfit.cLast⟩).bind fun name hname => ?_
  obtain ⟨num, hnum, hrange⟩ := hname
  exact Rx.Yields.pure (Names.lastName (hrange trivial).1 (hrange trivial).2 hnum)

theorem doOrderStatus_yields : (client.doOrderStatus (F := F)).Yields True client.Asks := by
  rw [doOrderStatus]
  refine (client.generator.draw_yields (by decide)).bind fun y _ => Rx.Yields.ite (fun _ => ?_) fun hy => ?_
  · refine (generateLastName_yields hc hfit).bind fun who hwho => ?_
    refine client.generateWarehouse_yields.bind fun w hw => client.generateDistrict_yields.bind fun d hd => ?_
    exact Rx.Yields.pure (Asks.orderStatus hw hd hwho)
  · refine (Rx.Yields.assert fun _ => not_le.mp hy).bind fun _ _ => ?_
    refine client.generateWarehouse_yields.bind fun w hw => client.generateDistrict_yields.bind fun d hd => ?_
    exact (generateCID_yields hc hfit).bind fun c hcid => Rx.Yields.pure (Asks.orderStatus hw hd (Names.id hcid))

theorem doPayment_yields [Money F] (now : Timestamp) : (client.doPayment (F := F) now).Yields True client.Asks := by
  rw [doPayment]
  refine (client.generator.draw_yields (by decide)).bind fun x _ => ?_
  refine (client.generator.draw_yields (by decide)).bind fun y _ => ?_
  refine client.generateWarehouse_yields.bind fun w hw => client.generateDistrict_yields.bind fun d hd => ?_
  refine (client.generateCustomerDistrict_yields hw hd).bind fun cd hcd => ?_
  refine (client.generator.fixedPoint_yields _ _ _).bind fun hAmount _ => Rx.Yields.ite (fun _ => ?_) fun hy => ?_
  · refine (generateLastName_yields hc hfit).bind fun who hwho => ?_
    exact Rx.Yields.pure (Asks.payment hw hd hcd.1 hcd.2 hwho)
  · refine (Rx.Yields.assert fun _ => not_le.mp hy).bind fun _ _ => ?_
    exact (generateCID_yields hc hfit).bind fun c hcid =>
      Rx.Yields.pure (Asks.payment hw hd hcd.1 hcd.2 (Names.id hcid))

/-- A line: the last one of an order that is marked for a rollback has an item that there is not. -/
theorem generateItem_yields {wId : ℤ} (hw : wId ∈ idsTo client.numWarehouses) (olCnt : ℤ) (rollback : Bool) (i : ℕ) :
    (client.generateItem wId olCnt rollback i).Yields True fun item =>
      item.olSupplyWId ∈ idsTo client.numWarehouses ∧
        if rollback ∧ (i : ℤ) + 1 = olCnt then item.iId = Item.numItems + 1 else item.iId ∈ idsTo client.numItems := by
  have hnum := client.warehouses_range.1
  rw [generateItem]
  refine Rx.Yields.bind (J := fun iId : ℤ => if rollback ∧ (i : ℤ) + 1 = olCnt then iId = Item.numItems + 1
    else iId ∈ idsTo client.numItems) ?_ fun iId hiId => ?_
  · refine Rx.Yields.ite (fun h => Rx.Yields.pure (by rw [if_pos h])) fun h => ?_
    exact (generateItemID_yields hc hfit).mono fun iId hiId => by rwa [if_neg h]
  · refine (client.generator.draw_yields (by decide)).bind fun millis _ => ?_
    refine Rx.Yields.bind (J := (· ∈ idsTo client.numWarehouses)) ?_ fun supply hsupply => ?_
    · refine Rx.Yields.ite (fun h => ?_) fun _ => Rx.Yields.pure hw
      exact (numberExcluding_yields _ (by omega) (mem_idsTo.mp hw)).mono fun n hn => mem_idsTo.mpr hn.1
    · exact (client.generator.draw_yields (by decide)).bind fun quantity _ => Rx.Yields.pure ⟨hsupply, hiId⟩

theorem doNewOrder_yields (now : Timestamp) : (client.doNewOrder (F := F) now).Yields True client.Asks := by
  rw [doNewOrder]
  refine client.generateWarehouse_yields.bind fun w hw => ?_
  refine (client.generator.draw_yields (by decide)).bind fun olCnt hcnt => ?_
  refine (client.generator.draw_yields (by decide)).bind fun percent _ => ?_
  dsimp only
  generalize decide (percent = 1) = rollback
  refine (Rx.Yields.mapM_forall₂ fun i _ => generateItem_yields hc hfit hw olCnt rollback i).bind fun items hitems => ?_
  refine client.generateDistrict_yields.bind fun d hd => (generateCID_yields hc hfit).bind fun c hcid => ?_
  refine Rx.Yields.pure (Asks.newOrder hw hd hcid ?_)
  have hlen := hitems.length_eq
  simp only [List.length_range, Order.minOlCnt, Order.maxOlCnt] at hlen hcnt
  refine ⟨by omega, fun item hitem => ?_, fun item hitem => ?_, fun hrollback => ?_⟩
  · obtain ⟨i, -, hi, -⟩ := exists_of_forall₂_right hitems hitem
    exact hi
  · obtain ⟨i, -, -, hi⟩ := exists_of_forall₂_right hitems hitem
    split at hi
    · next hlast => exact Or.inr ⟨hlast.1, hi⟩
    · exact Or.inl hi
  · -- the last line
    have hlt : olCnt.toNat - 1 < items.length := by omega
    have hget := hitems.get (i := olCnt.toNat - 1) (by rw [List.length_range]; omega) hlt
    refine ⟨items[olCnt.toNat - 1], List.getElem_mem hlt, ?_⟩
    have hlast := hget.2
    simp only [List.get_eq_getElem, List.getElem_range] at hlast
    rwa [if_pos ⟨hrollback, by omega⟩] at hlast

/-- **Every request** is one that the client may make, and it is made. -/
theorem request_yields [Money F] (a : ClientCall) : (client.request (F := F) a).Yields True client.Asks := by
  have hone : (client.doOne (F := F) a.now).Yields True client.Asks := by
    rw [doOne]
    refine (client.generator.draw_yields (by decide)).bind fun x _ => ?_
    refine Rx.Yields.ite (fun _ => client.doStockLevel_yields) fun _ => ?_
    refine Rx.Yields.ite (fun _ => client.doDelivery_yields _) fun _ => ?_
    refine Rx.Yields.ite (fun _ => doOrderStatus_yields hc hfit) fun _ => ?_
    refine Rx.Yields.ite (fun _ => doPayment_yields hc hfit _) fun hx => ?_
    exact (Rx.Yields.assert fun _ => by omega).bind fun _ _ => doNewOrder_yields hc hfit _
  rw [request]
  cases a.function with
  | doStockLevel => exact client.doStockLevel_yields
  | doOrderStatus => exact doOrderStatus_yields hc hfit
  | doDelivery => exact client.doDelivery_yields _
  | doPayment => exact doPayment_yields hc hfit _
  | doNewOrder => exact doNewOrder_yields hc hfit _
  | doOne => exact hone

end Constants

end TPCCClient

end TpccBench
