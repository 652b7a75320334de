import TpccBench.Db.Pipeline
import TpccBench.Load.Loaded

/-!
# The order pipeline of a loaded database

A load leaves an order of each customer, the last of them in the queue, and from then on the
pipeline stays in order (`TpccBench.TPCCGenerator.order_pipeline`).
-/

namespace TpccBench

open Prog

variable {F : Type} [Money F]

namespace TPCCGenerator

variable {g : TPCCGenerator} {warehouses : ℕ} {x : LoadData F} {t t' : Tables F} {w d : ℤ}

/-- The oldest order of a district that a load leaves in the queue. -/
def firstNew (g : TPCCGenerator) : ℤ := g.customersPerDistrict - g.newOrdersPerDistrict + 1

omit [Money F] in
theorem rowOf_order (hw : w ∈ idsTo warehouses) (hd : d ∈ idsTo g.districtsPerWarehouse) (o : ℤ) :
    g.rowOf warehouses x .order (w, d, o) =
      if o ∈ idsTo g.customersPerDistrict then some (((x.warehouse w).district d).order o).order else none := by
  simp only [rowOf, hw, hd, true_and]

/-- **The pipeline of a district that was loaded.** -/
theorem Makes.pipeline (hx : g.Makes warehouses x) (hw : w ∈ idsTo warehouses)
    (hd : d ∈ idsTo g.districtsPerWarehouse) :
    (g.db warehouses x).Pipeline w d g.firstNew (g.customersPerDistrict + 1) := by
  have hy := (hx.at hw).at hd
  have hle := g.newOrders_le
  have hpos := g.newOrders_range.1
  have hnew : ∀ o, g.IsNew o ↔ g.firstNew ≤ o := fun o => by
    rw [IsNew, firstNew]
    omega
  have hrow : ∀ o, (g.db warehouses x).row .order (w, d, o) =
      if o ∈ idsTo g.customersPerDistrict then some (((x.warehouse w).district d).order o).order else none :=
    rowOf_order hw hd
  have hsome : ∀ {o order}, (g.db warehouses x).row .order (w, d, o) = some order →
      o ∈ idsTo g.customersPerDistrict ∧ order = (((x.warehouse w).district d).order o).order := fun {o order} ho => by
    rw [hrow] at ho
    split at ho
    · next hin => exact ⟨hin, (Option.some.inj ho).symm⟩
    · exact absurd ho (by simp)
  have hline : ∀ o i, (g.db warehouses x).row .orderLine (w, d, o, i) =
      if o ∈ idsTo g.customersPerDistrict ∧ i ∈ idsTo (((x.warehouse w).district d).order o).order.oOlCnt.toNat then
        some ((((x.warehouse w).district d).order o).line i) else none := fun o i => by
    simp only [db, rowOf, hw, hd, true_and]
  refine ⟨?_, ?carrier⟩
  case carrier =>
    intro o order ho
    obtain ⟨hin, rfl⟩ := hsome ho
    rw [(hy.orderAt hin).carrier, hnew]
  constructor
  case nextOId =>
    have hdist : (g.db warehouses x).row .district (w, d) = some ((x.warehouse w).district d).district := by
      simp only [db, rowOf, hw, hd, true_and, if_true]
    rw [hdist, Option.map_some, hy.nextOId]
  case bounds =>
    rw [firstNew]
    omega
  case order =>
    intro o
    rw [hrow]
    split
    · next hin =>
      have := mem_idsTo.mp hin
      simp only [Option.isSome_some, true_iff]
      omega
    · next hout =>
      rw [mem_idsTo] at hout
      simp only [Option.isSome_none, Bool.false_eq_true, false_iff]
      omega
  case newOrder =>
    intro o
    have hno : (g.db warehouses x).row .newOrder (w, d, o) =
        if o ∈ idsTo g.customersPerDistrict ∧ g.IsNew o then some ⟨w, d, o⟩ else none := by
      simp only [db, rowOf, hw, hd, true_and]
    rw [hno]
    split
    · next hin =>
      have hmem := mem_idsTo.mp hin.1
      have hfirst := (hnew o).mp hin.2
      simp only [Option.isSome_some, true_iff]
      omega
    · next hout =>
      rw [hnew, mem_idsTo, firstNew] at hout
      rw [firstNew]
      simp only [Option.isSome_none, Bool.false_eq_true, false_iff]
      omega
  case customer =>
    intro o order ho
    obtain ⟨hin, rfl⟩ := hsome ho
    have hc := hy.customer_of_order hin
    have hcust : (g.db warehouses x).row .customer (w, d, (((x.warehouse w).district d).order o).order.oCId) =
        some (((x.warehouse w).district d).customer (((x.warehouse w).district d).order o).order.oCId) := by
      simp only [db, rowOf, hw, hd, hc, true_and, if_true]
    rw [hcust]
    rfl
  case line =>
    intro o order ho i
    obtain ⟨hin, rfl⟩ := hsome ho
    have hcnt := (hy.orderAt hin).olCnt
    rw [hline]
    simp only [hin, true_and]
    split
    · next hi =>
      have := mem_idsTo.mp hi
      simp only [Option.isSome_some, true_iff]
      omega
    · next hi =>
      rw [mem_idsTo] at hi
      simp only [Option.isSome_none, Bool.false_eq_true, false_iff]
      omega
  case lineOrder =>
    intro o i h
    rw [hline] at h
    split at h
    · next hin =>
      rw [hrow, if_pos hin.1]
      rfl
    · exact absurd h (by simp)
  case deliveryD =>
    intro o i line hl
    rw [hline] at hl
    split at hl
    · next hin =>
      obtain rfl := Option.some.inj hl
      have hmakes := (hy.orderAt hin.1).lineAt hin.2
      rw [← hnew]
      by_cases hn : g.IsNew o
      · exact ⟨fun _ => hn, fun _ => hmakes.new hn⟩
      · have hnow := g.now_length
        refine ⟨fun hempty => ?_, fun h => absurd h hn⟩
        rw [(hmakes.old hn).1] at hempty
        rw [hempty] at hnow
        exact absurd hnow (by decide)
    · exact absurd hl (by simp)

/-- **Every district is in order**, or not there. -/
theorem Loads.orderly (ht : g.Loads warehouses t) (w d : ℤ) : t.db.Orderly w d := by
  obtain ⟨-, x, hx, hdb⟩ := ht.exists_db
  rw [hdb]
  by_cases hin : w ∈ idsTo warehouses ∧ d ∈ idsTo g.districtsPerWarehouse
  · exact Or.inl ⟨_, _, hx.pipeline hin.1 hin.2⟩
  · refine Or.inr ⟨?_, fun o => ?_⟩
    · simp only [db, rowOf, if_neg hin]
    · have hout : ¬(w ∈ idsTo warehouses ∧ d ∈ idsTo g.districtsPerWarehouse ∧ o ∈ idsTo g.customersPerDistrict ∧
          g.IsNew o) := fun h => hin ⟨h.1, h.2.1⟩
      simp only [db, rowOf, if_neg hout]

/-- **The order pipeline.** After every run of committed transactions on loaded tables: the orders of
a district have consecutive ids, those of the queue are the last of them, and the run has
delivered the ones before, in their order. The next delivery does not fail, and takes the head of
each queue. -/
theorem order_pipeline (ht : g.Loads warehouses t) {calls : List (Txn F × Option HashOrder)}
    {replies : List (Reply F)} (hcalls : ∀ e ∈ calls, e.1.Carries) (h : commitAll calls t = some (replies, t'))
    (hw : w ∈ idsTo warehouses) (hd : d ∈ idsTo g.districtsPerWarehouse) :
    ∃ k n, t'.db.Pipeline w d k n ∧ g.firstNew ≤ k ∧ takenAll w d calls replies = idsFrom g.firstNew k ∧
      ∀ carrierId now free, 1 ≤ carrierId → now.length = datetimeSize →
        ∃ orders t'', (Txn.delivery w carrierId now).reply.commit free t' = some (.delivery orders, t'') ∧
          (orders.map DeliveryOrderInfo.dId).Pairwise (· < ·) ∧
          (orders.filter fun info => info.dId = d) = (if k < n then [⟨d, k⟩] else []) ∧
          t''.db.Pipeline w d (if k < n then k + 1 else k) n := by
  obtain ⟨hs, x, hx, hdb⟩ := ht.exists_db
  have hdIds : d ∈ Tx.districtIds := mem_districtIds (validDistrict_of_mem hd)
  obtain ⟨hs', k, n, hk, hn, htaken, hp⟩ := pipeline_of_run hs hcalls hdIds (hdb ▸ hx.pipeline hw hd) h
  refine ⟨k, n, hp, hk, htaken, fun carrierId now free hc hnow => ?_⟩
  have horderly : ∀ d ∈ Tx.districtIds, t'.db.Orderly w d := fun d hd =>
    orderly_of_run hs hcalls hd (ht.orderly w d) h
  obtain ⟨orders, t'', hcommit, hsorted, htake⟩ := commit_delivery hs' (hx.validWarehouse hw) horderly hc hnow free
  obtain ⟨horders, hp'⟩ := htake d hdIds k n hp
  exact ⟨orders, t'', hcommit, hsorted, horders, hp'⟩

/-- An order, its payment, and two deliveries: of the loaded order, and of this one. -/
def generatedCalls : List (Txn ℚ × Option HashOrder) :=
  [(.newOrder .asInserted 1 1 1 [⟨1, 1, 5⟩] (List.replicate 14 '0') .new, none),
    (.payment 1 1 1 1 1 7 (List.replicate 14 '0'), none),
    (.delivery 1 3 (List.replicate 14 '0'), some .asInserted),
    (.delivery 1 4 (List.replicate 14 '0'), none)]

theorem generatedCalls_run : (commitAll generatedCalls generatedTables).isSome := by decide +kernel

theorem order_pipeline_generated : ∃ replies t' k n, commitAll generatedCalls generatedTables = some (replies, t') ∧
    t'.db.Pipeline 1 1 k n ∧ takenAll 1 1 generatedCalls replies = idsFrom 1 k := by
  obtain ⟨⟨replies, t'⟩, hrun⟩ := Option.isSome_iff_exists.mp generatedCalls_run
  have hcalls : ∀ e ∈ generatedCalls, e.1.Carries := by
    simp [generatedCalls, Txn.Carries]
  obtain ⟨k, n, hp, -, htaken, -⟩ :=
    order_pipeline generatedTables_loads hcalls hrun (w := 1) (d := 1) (by decide) (by decide)
  exact ⟨replies, t', k, n, hrun, hp, htaken⟩

end TPCCGenerator

end TpccBench
