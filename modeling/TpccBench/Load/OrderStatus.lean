import TpccBench.Db.OrderStatus
import TpccBench.Load.Pipeline
import TpccBench.Load.References

/-!
# Order status reads back the latest order

A load leaves one order of each customer, and every new order has a greater id than those before it
in its district. So after a run in which transactions have been undone last to first, order status
reports the last order of the customer that has not been undone, or the loaded one, with a carrier
and dates exactly if it has been delivered (`TpccBench.TPCCGenerator.order_status_latest`).
-/

namespace TpccBench

open Prog

variable {F : Type} [Money F]

/-- **The latest order of a customer** is the one that is reported: of the orders that were placed and not
undone the one with the greatest id, and the loaded one where there is none. -/
def IsLatest (t₀ : Tables F) (ds : List (Done F)) (w d c : ℤ) (out : OrderStatusOutput F) : Prop :=
  (∃ e ∈ ds, ∃ items, e.Placed w d c out.oId items ∧ out.given = .ofItems t₀.items c items ∧
    ∀ e' ∈ ds, ∀ o items', e'.Placed w d c o items' → o ≤ out.oId) ∨
  (∀ e ∈ ds, ∀ o items, ¬e.Placed w d c o items) ∧ t₀.db.book w d out.oId = some out.given ∧
    ∀ o order, t₀.db.book w d o = some order → order.oCId = c → o = out.oId

namespace TPCCGenerator

variable {g : TPCCGenerator} {warehouses : ℕ} {t₀ t : Tables F} {ds : List (Done F)} {w d c : ℤ}

/-- The order has been loaded as a delivered one, or a delivery that is not undone has taken it. -/
def IsDelivered (g : TPCCGenerator) (ds : List (Done F)) (w d o : ℤ) : Prop :=
  ¬g.IsNew o ∨ ∃ e ∈ ds, o ∈ e.txn.taken w d e.reply

/-- The loaded orders have at least five lines. -/
theorem Loads.book_cnt (ht : g.Loads warehouses t₀) {o : ℤ} {order : GivenOrder F}
    (hbook : t₀.db.book w d o = some order) : 0 ≤ order.oOlCnt := by
  obtain ⟨-, x, hx, hdb⟩ := ht.exists_db
  rw [hdb] at hbook
  obtain ⟨row, hrow, rfl⟩ := Option.map_eq_some_iff.mp hbook
  obtain ⟨⟨hw, hd, ho⟩, rfl⟩ := db_order_eq_some.mp hrow
  exact le_trans (by decide) (((hx.at hw).at hd).orderAt ho).olCnt.1

/-- Each customer has one loaded order. -/
theorem Loads.book_owns (ht : g.Loads warehouses t₀) (hw : w ∈ idsTo warehouses) (hd : d ∈ idsTo g.districtsPerWarehouse)
    (hc : c ∈ idsTo g.customersPerDistrict) : ∃! o, ∃ order, t₀.db.book w d o = some order ∧ order.oCId = c := by
  obtain ⟨-, x, hx, hdb⟩ := ht.exists_db
  rw [hdb]
  obtain ⟨o, ⟨row, hrow, hcid⟩, hunique⟩ := hx.owns (db_customer_isSome.mpr ⟨hw, hd, hc⟩)
  refine ⟨o, ⟨_, Option.map_eq_some_iff.mpr ⟨row, hrow, rfl⟩, hcid⟩, ?_⟩
  rintro o' ⟨order, hbook, hcid'⟩
  obtain ⟨row', hrow', rfl⟩ := Option.map_eq_some_iff.mp hbook
  exact hunique o' ⟨row', hrow', hcid'⟩

/-- **Order status reads back the latest order.** -/
theorem order_status_latest (ht : g.Loads warehouses t₀) {turns : List (Turn F)}
    (hrun : Run.result Turn.step (t₀, []) turns = some (t, ds)) (hcarries : ∀ e ∈ ds, e.txn.Carries)
    (hids : ∀ e ∈ ds, ∀ w d c o items, e.Placed w d c o items → o ≤ 143164) (hw : w ∈ idsTo warehouses)
    (hd : d ∈ idsTo g.districtsPerWarehouse) (hc : c ∈ idsTo g.customersPerDistrict) :
    ∃ out, Op.orderStatus w d c t = some (out, t) ∧ out.cId = c ∧ IsLatest t₀ ds w d c out ∧
      (out.oCarrierId ≠ Order.nullCarrierId ↔ g.IsDelivered ds w d out.oId) ∧
      ∀ l ∈ out.lines, l.olDeliveryD.chars ≠ [] ↔ g.IsDelivered ds w d out.oId := by
  obtain ⟨hs₀, x, hx, hdb⟩ := ht.exists_db
  obtain ⟨hs, hran⟩ := Turn.run_ran hs₀ hrun
  have hp₀ : t₀.db.Pipeline w d g.firstNew (g.customersPerDistrict + 1) := hdb ▸ hx.pipeline hw hd
  have hdIds : d ∈ Tx.districtIds := mem_districtIds (validDistrict_of_mem hd)
  obtain ⟨k, n, hk, hn, hp, htaken⟩ := hran.pipeline hp₀ hdIds hcarries
  have hfiled := hran.filed hp₀ hdIds hcarries
  -- the last order of the customer in the book
  obtain ⟨o₀, ⟨order₀, hbook₀, hcid₀⟩, hunique⟩ := ht.book_owns hw hd hc
  have hlt₀ := (hp₀.toQueue.book_isSome (o := o₀)).mp (by rw [hbook₀]; rfl)
  obtain ⟨o, order, hbook, hcid, -, hlast⟩ := hp.toQueue.exists_last
    ⟨o₀, order₀, (hfiled.old o₀ (by omega)).trans hbook₀, hcid₀⟩
  have hcust : (t.db.row .customer (w, d, c)).isSome := by
    obtain ⟨row, hrow, rfl⟩ := Option.map_eq_some_iff.mp hbook
    exact hcid ▸ hp.customer hrow
  -- it was loaded, or placed
  have hsource : o < g.customersPerDistrict + 1 ∧ t₀.db.book w d o = some order ∨
      ∃ e ∈ ds, ∃ items, e.Placed w d c o items ∧ order = .ofItems t₀.items c items := by
    by_cases ho : o < g.customersPerDistrict + 1
    · exact Or.inl ⟨ho, (hfiled.old o ho).symm.trans hbook⟩
    · obtain ⟨e, he, c', items, hplaced⟩ := hfiled.only (not_lt.mp ho) (by rw [hbook]; rfl)
      obtain rfl := Option.some.inj (hbook.symm.trans (hfiled.placed he hplaced).2)
      obtain rfl : c' = c := hcid
      exact Or.inr ⟨e, he, items, hplaced, rfl⟩
  have hafter : ∀ e ∈ ds, ∀ o' items, e.Placed w d c o' items → g.customersPerDistrict + 1 ≤ o' ∧ o' ≤ o :=
    fun e he o' items hplaced => by
      obtain ⟨hle, hbook'⟩ := hfiled.placed he hplaced
      exact ⟨hle, hlast o' _ hbook' rfl⟩
  have hcnt : 0 ≤ order.oOlCnt := by
    rcases hsource with ⟨-, hbook₁⟩ | ⟨e, he, items, -, rfl⟩
    · exact ht.book_cnt hbook₁
    · exact Int.natCast_nonneg _
  have hle : o ≤ 143164 := by
    rcases hsource with ⟨hlt, -⟩ | ⟨e, he, items, hplaced, -⟩
    · have := g.customers_range.2
      omega
    · exact hids e he w d c o items hplaced
  obtain ⟨out, hout, rfl, hgiven, hcarrier, hdates⟩ :=
    hs.orderStatus_spec hp hcust hbook hcid hcnt hlast hle
  have hdelivered : out.oId < k ↔ g.IsDelivered ds w d out.oId := by
    rw [IsDelivered, htaken, IsNew]
    rw [firstNew] at hk ⊢
    omega
  rw [hdelivered] at hcarrier hdates
  refine ⟨out, hout, ?_, ?_, hcarrier, hdates⟩
  · rw [← hcid, ← hgiven]
    rfl
  · rcases hsource with ⟨hlt, hbook₁⟩ | ⟨e, he, items, hplaced, horder⟩
    · refine Or.inr ⟨fun e he o' items hplaced => ?_, by rw [hgiven, hbook₁], fun o' order' hbook' hcid' => ?_⟩
      · have := hafter e he o' items hplaced
        omega
      · exact (hunique o' ⟨order', hbook', hcid'⟩).trans (hunique out.oId ⟨order, hbook₁, hcid⟩).symm
    · exact Or.inl ⟨e, he, items, hplaced, hgiven.trans horder, fun e' he' o' items' h => (hafter e' he' o' items' h).2⟩

/-! ### An order that is undone -/

/-- A delivery takes the loaded order, an order is undone, and another one is placed. -/
def undoneTurns : List (Turn ℚ) :=
  [.exec (.delivery 1 3 (List.replicate 14 '0')),
    .exec (.newOrder .asInserted 1 1 1 [⟨1, 1, 5⟩] (List.replicate 14 '0') .new),
    .undo .asInserted,
    .commit (.newOrder .asInserted 1 1 1 [⟨1, 1, 7⟩, ⟨1, 1, 2⟩] (List.replicate 14 '0') .new)]

theorem order_status_latest_undone : ∃ t ds out, Run.result Turn.step (generatedTables, []) undoneTurns = some (t, ds) ∧
    Op.orderStatus 1 1 1 t = some (out, t) ∧ IsLatest generatedTables ds 1 1 1 out := by
  have hrun : (Run.result Turn.step (generatedTables, []) undoneTurns).any (fun s => s.2.all fun e =>
      decide e.txn.Carries && e.reply.reported.all fun out => decide (out.oId ≤ 143164)) = true := by decide +kernel
  obtain ⟨⟨t, ds⟩, hrun, hall⟩ := (Option.any_eq_true _ _).mp hrun
  have hall := List.all_eq_true.mp hall
  have hcarries : ∀ e ∈ ds, e.txn.Carries := fun e he =>
    of_decide_eq_true (Bool.and_eq_true_iff.mp (hall e he)).1
  have hids : ∀ e ∈ ds, ∀ w d c o items, e.Placed w d c o items → o ≤ 143164 := fun e he w d c o items hplaced => by
    obtain ⟨out, hr, rfl⟩ := hplaced.reply
    have hout := (Bool.and_eq_true_iff.mp (hall e he)).2
    rw [Reply.reported_eq_some.mpr hr] at hout
    exact of_decide_eq_true hout
  obtain ⟨out, hout, -, hlatest, -⟩ :=
    order_status_latest generatedTables_loads hrun hcarries hids (w := 1) (d := 1) (c := 1) (by decide) (by decide) (by decide)
  exact ⟨t, ds, out, hrun, hout, hlatest⟩

end TPCCGenerator

end TpccBench
