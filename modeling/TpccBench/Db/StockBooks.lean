import Mathlib.Algebra.BigOperators.Finprod
import Mathlib.Data.Int.Interval
import TpccBench.Db.Stays
import TpccBench.Db.StockLevels

/-!
# The books of the stock

A stock row counts what was ordered from it: the quantities, the orders, and the orders of other warehouses. So do
the order lines of all districts that it supplies, and a transaction that is not divided adds the same to both
(`TpccBench.StockCounter.step`). So over every run the counters of a stock row count on what its lines do
(`TpccBench.stock_counts_lines`), modulo the word size once a sum does not fit.
-/

namespace TpccBench

open Prog

variable {F : Type}

/-- A transaction that is not one part of an order only. -/
def Txn.Undivided : Txn F → Prop
  | newOrderHome .. => False
  | newOrderRemote .. => False
  | _ => True

/-! ### What is counted -/

namespace StockCounter

/-- **What a line counts for**: a line of a warehouse, that another one may supply. -/
def weight (home olSupplyWId olQuantity : ℤ) : StockCounter → ℤ
  | sYtd => olQuantity
  | sOrderCnt => 1
  | sRemoteCnt => if olSupplyWId ≠ home then 1 else 0

variable (k : StockCounter)

/-- What some lines count for. -/
def sum (ls : List SupplyLine) : ℤ := (ls.map fun l => k.weight l.1 l.2.olSupplyWId l.2.olQuantity).sum

/-- Lines that are not counted count for nothing. -/
theorem sum_terms (ls : List SupplyLine) : (k.terms ls).sum = k.sum ls := by
  cases k with
  | sYtd => rfl
  | sOrderCnt => rfl
  | sRemoteCnt =>
    induction ls with
    | nil => rfl
    | cons l ls ih =>
      rw [sum, List.map_cons, List.sum_cons, ← sum, ← ih, terms, terms, weight]
      by_cases hr : l.2.olSupplyWId ≠ l.1
      · rw [if_pos hr, List.filter_cons_of_pos (by simpa using hr), List.map_cons, List.sum_cons]
      · rw [if_neg hr, List.filter_cons_of_neg (by simpa using hr), zero_add]

end StockCounter

/-- What the lines of an order count for that are supplied from a stock row. -/
def GivenOrder.sum (order : GivenOrder F) (k : StockCounter) (home : ℤ) (id : ℤ × ℤ) : ℤ :=
  ((order.lines.reduceOption.filter fun l => (l.olSupplyWId, l.olIId) = id).map fun l =>
    k.weight home l.olSupplyWId l.olQuantity).sum

/-- What an order counts for, in all districts. -/
def Db.orderSum (db : Db F) (k : StockCounter) (id : ℤ × ℤ) (o : ℤ × ℤ × ℤ) : ℤ :=
  (db.book o.1 o.2.1 o.2.2).elim 0 fun order => order.sum k o.1 id

/-- **What the order lines count for** that are supplied from a stock row. -/
noncomputable def Db.lineSum (db : Db F) (k : StockCounter) (id : ℤ × ℤ) : ℤ := finsum (db.orderSum k id)

/-- An order that is placed counts for its lines. -/
theorem GivenOrder.sum_ofItems [Money F] (k : StockCounter) (items : List (Item F)) (w c : ℤ)
    (ordered : List NewOrderItem) (id : ℤ × ℤ) :
    (GivenOrder.ofItems items c ordered).sum k w id = k.sum (linesAt id (Db.orderLines w ordered)) := by
  have hlines : (GivenOrder.ofItems items c ordered).lines.reduceOption = ordered.map fun item => item.given items := by
    have hsome : (ordered.map fun item => some (item.given items)).reduceOption =
        ordered.filterMap fun item => some (item.given items) := List.filterMap_map
    exact hsome.trans (congrFun List.filterMap_eq_map ordered)
  rw [GivenOrder.sum, hlines, StockCounter.sum, linesAt, Db.orderLines, List.filter_map, List.filter_map, List.map_map,
    List.map_map]
  rfl

namespace Db

variable {db db' : Db F} {w d c : ℤ}

/-- An order has a key. -/
theorem Keyed.book_range (hk : db.Keyed) {o : ℤ} (h : (db.book w d o).isSome) :
    validWarehouse w ∧ validDistrict d ∧ validOrder o := by
  rw [book, Option.isSome_map] at h
  obtain ⟨hw, hd, ho, -⟩ := primary_order_iff.mp (hk.keys (Option.eq_some_of_isSome h))
  exact ⟨hw, hd, ho⟩

/-- So there are finitely many. -/
theorem Keyed.finite_orderSum (hk : db.Keyed) (k : StockCounter) (id : ℤ × ℤ) :
    (Function.support (db.orderSum k id)).Finite := by
  have hfinite : (Set.Icc 1 Warehouse.maxWarehouseId ×ˢ Set.Icc 1 (District.numPerWarehouse : ℤ) ×ˢ
      Set.Icc 1 Order.maxOrderId).Finite :=
    (Set.finite_Icc _ _).prod ((Set.finite_Icc _ _).prod (Set.finite_Icc _ _))
  refine hfinite.subset ?_
  rintro ⟨w, d, o⟩ hne
  have hsome : (db.book w d o).isSome := by
    rw [Option.isSome_iff_ne_none]
    intro hnone
    refine hne ?_
    simp only [orderSum]
    rw [hnone]
    rfl
  obtain ⟨hw, hd, ho⟩ := hk.book_range hsome
  exact ⟨hw, hd, ho⟩

/-- The same orders in every district. -/
theorem lineSum_congr (h : ∀ w d o, db'.book w d o = db.book w d o) (k : StockCounter) (id : ℤ × ℤ) :
    db'.lineSum k id = db.lineSum k id := by
  refine congrArg finsum (funext fun o => ?_)
  rw [orderSum, orderSum, h]

/-- **An order more.** -/
theorem lineSum_place (hk : db.Keyed) {o : ℤ} {order : GivenOrder F} (hnone : db.book w d o = none)
    (h : ∀ w' d' o', db'.book w' d' o' = if (w', d', o') = (w, d, o) then some order else db.book w' d' o')
    (k : StockCounter) (id : ℤ × ℤ) : db'.lineSum k id = db.lineSum k id + order.sum k w id := by
  have hadd : db'.orderSum k id = db.orderSum k id + Pi.single (w, d, o) (order.sum k w id) := by
    funext o'
    obtain ⟨w', d', o'⟩ := o'
    rw [Pi.add_apply, orderSum, orderSum]
    dsimp only
    rw [h]
    by_cases heq : (w', d', o') = (w, d, o)
    · rw [if_pos heq, heq, Pi.single_eq_same]
      obtain ⟨hw, heq⟩ := Prod.mk.inj heq
      obtain ⟨hd, ho⟩ := Prod.mk.inj heq
      rw [hw, hd, ho, hnone]
      exact (zero_add _).symm
    · rw [if_neg heq, Pi.single_eq_of_ne heq, add_zero]
  have hsingle : (Function.support (Pi.single (w, d, o) (order.sum k w id) : ℤ × ℤ × ℤ → ℤ)).Finite :=
    (Set.finite_singleton (w, d, o)).subset Pi.support_single_subset
  have hsum : finsum (Pi.single (w, d, o) (order.sum k w id) : ℤ × ℤ × ℤ → ℤ) = order.sum k w id := by
    rw [finsum_eq_single _ (w, d, o), Pi.single_eq_same]
    intro o' hne
    exact Pi.single_eq_of_ne hne _
  rw [lineSum, hadd]
  refine (finsum_add_distrib (hk.finite_orderSum k id) hsingle).trans ?_
  rw [hsum, lineSum]

end Db

/-! ### A step -/

variable [Money F] {db db' : Db F}

/-- **An order is placed** in its district, and in no other. -/
theorem Placement.book {w d c : ℤ} {items : List NewOrderItem} {p : Placement F w d c items} (hp : p.Valid db)
    (ls : List SupplyLine) (w' d' o' : ℤ) : ((p.apply db).takeStock ls).book w' d' o' =
      if (w', d', o') = (w, d, p.oId) then some (.ofItems db.items c items) else db.book w' d' o' := by
  rw [(Db.SameOrders.takeStock ls).book]
  by_cases heq : (w, d) = (w', d')
  · obtain ⟨rfl, rfl⟩ := Prod.mk.inj heq
    rw [Db.book_place hp]
    simp only [Prod.mk.injEq, true_and]
  · rw [(Db.SameOrders.placed hp heq).book, if_neg]
    intro heq'
    simp only [Prod.mk.injEq] at heq' heq
    exact heq ⟨heq'.1.symm, heq'.2.1.symm⟩

/-- A step that places no order writes no book. -/
theorem Db.Step.book_quiet {x : Txn F} {r : Reply F} (h : Db.Step x r db db') (hk : db.Keyed)
    (hx : ∀ w d c items, x.Places w d c items → r.committed = false) (w d o : ℤ) :
    db'.book w d o = db.book w d o := by
  by_cases hd : d ∈ Tx.districtIds
  · exact Db.book_step h hk hd (hx w d)
  · -- there is no such district
    have hnone : ∀ {db : Db F}, db.Keyed → db.book w d o = none := by
      intro db hk
      rw [← Option.not_isSome_iff_eq_none]
      intro hsome
      exact hd (mem_districtIds (hk.book_range hsome).2.1)
    rw [hnone hk, hnone (h.keyed hk)]

/-- **The counters and the lines** count on alike: a counter step by step, in an `int32_t`. -/
def StockCounter.Agree (db db' : Db F) : Prop := ∀ (k : StockCounter) (id : ℤ × ℤ),
  Option.Rel (fun s s' => ∃ ns : List ℤ, k.value s' = Word.tally 32 (k.value s) ns ∧
      db'.lineSum k id = db.lineSum k id + ns.sum) (db.row .stock id) (db'.row .stock id)

namespace StockCounter

omit [Money F] in
/-- Nothing is ordered. -/
theorem Agree.of_same (hstock : db'.row .stock = db.row .stock) (hbook : ∀ w d o, db'.book w d o = db.book w d o) :
    Agree db db' := by
  intro k id
  rw [hstock, Db.lineSum_congr hbook]
  cases db.row .stock id with
  | none => exact Option.Rel.none
  | some s => exact Option.Rel.some ⟨[], rfl, (add_zero _).symm⟩

omit [Money F] in
theorem Agree.trans {db'' : Db F} (h : Agree db db') (h' : Agree db' db'') : Agree db db'' := by
  intro k id
  refine rel_mono (rel_trans (h k id) (h' k id)) ?_
  rintro s s'' ⟨s', ⟨ns, hvalue, hsum⟩, ns', hvalue', hsum'⟩
  refine ⟨ns ++ ns', ?_, ?_⟩
  · rw [hvalue', hvalue, Word.tally_append]
  · rw [hsum', hsum, List.sum_append, add_assoc]

/-- **An order is placed**: its lines are taken from the stock. -/
theorem Agree.place (hk : db.Keyed) {w d c : ℤ} {items : List NewOrderItem} {p : Placement F w d c items}
    (hp : p.Valid db) (ls : List SupplyLine)
    (hstock : ((p.apply db).takeStock ls).row .stock = (db.takeStock (Db.orderLines w items)).row .stock) :
    Agree db ((p.apply db).takeStock ls) := by
  intro k id
  have hnone : db.book w d p.oId = none := Option.map_eq_none_iff.mpr hp.order
  rw [hstock, Db.takeStock_stock, Db.lineSum_place hk hnone (Placement.book hp ls), GivenOrder.sum_ofItems]
  cases db.row .stock id with
  | none => exact Option.Rel.none
  | some s =>
    refine Option.Rel.some ⟨_, k.value_orderedAll _ s, ?_⟩
    rw [sum_terms]

/-- **A transaction that is not divided.** -/
theorem step {t t' : Tables F} (ht : t.Sound) {x : Txn F} (hx : x.Undivided) {free : Option HashOrder} {r : Reply F}
    (h : x.reply.commit free t = some (r, t')) : Agree t.db t'.db := by
  have hk := ht.keyed
  obtain ⟨-, hs⟩ := Txn.commit_step ht h
  have hquiet : (∀ w d c items, x.Places w d c items → r.committed = false) → t'.db.row .stock = t.db.row .stock →
      Agree t.db t'.db := fun hno hstock => Agree.of_same hstock (hs.book_quiet hk hno)
  generalize hdb : t'.db = db' at hs hquiet ⊢
  cases hs with
  | refuse hplaces hr => exact Agree.of_same rfl fun _ _ _ => rfl
  | @place _ _ w d c items _ ls p hplaces hr hp =>
    have horders : x.Orders ∧ x.lines = Db.orderLines w items := by
      cases hplaces with
      | newOrder => exact ⟨trivial, rfl⟩
      | newOrderHome => exact hx.elim
    obtain ⟨-, hstock, -⟩ := Txn.commit_orders ht horders.1 h hr
    rw [hdb, horders.2] at hstock
    exact Agree.place hk hp ls hstock
  | take => exact hx.elim
  | pay hpays _ hcust =>
    refine hquiet (fun w d c items hplaces => by cases hpays <;> cases hplaces) ?_
    rw [Db.setRow_row_of_ne _ (by decide), PaidHome.apply_row_of_ne (by decide)]
  | payHome => exact hquiet (fun w d c items hplaces => by cases hplaces) (PaidHome.apply_row_of_ne (by decide))
  | payRemote hpays _ =>
    refine hquiet (fun w d c items hplaces => by cases hpays <;> cases hplaces) ?_
    exact Db.setRow_row_of_ne _ (by decide)
  | deliver hships =>
    exact hquiet (fun w d c items hplaces => by cases hplaces) (hships.row_of_ne (by decide))

end StockCounter

/-! ### A run -/

variable {t t' : Tables F} {calls : List (Txn F × Option HashOrder)} {replies : List (Reply F)}

/-- **The books of the stock.** In every run of transactions that are not divided, on whatever tables: each counter
of a stock row has counted on what the order lines count for that the run has added, in all districts; exactly, as
long as the sum fits. -/
theorem stock_counts_lines (ht : t.Sound) (hcalls : ∀ e ∈ calls, e.1.Undivided)
    (h : commitAll calls t = some (replies, t')) (k : StockCounter) (id : ℤ × ℤ) :
    Option.Rel (fun s s' => Counted (k.value s) (t'.db.lineSum k id - t.db.lineSum k id) (k.value s'))
      (t.db.row .stock id) (t'.db.row .stock id) := by
  have hrun : t'.Sound ∧ StockCounter.Agree t.db t'.db := by
    induction calls using List.reverseRecOn generalizing replies t' with
    | nil =>
      obtain ⟨-, rfl⟩ := Prod.mk.inj (Option.some.inj h)
      exact ⟨ht, StockCounter.Agree.of_same rfl fun _ _ _ => rfl⟩
    | append_singleton calls e ih =>
      rw [commitAll, mapM_snoc_apply] at h
      obtain ⟨⟨replies₁, t₁⟩, hrun, h⟩ := Option.bind_eq_some_iff.mp h
      obtain ⟨⟨r, t₂⟩, hcommit, heq⟩ := Option.map_eq_some_iff.mp h
      obtain ⟨-, rfl⟩ := Prod.mk.inj heq
      obtain ⟨ht₁, hagree⟩ := ih (fun e he => hcalls e (List.mem_append_left _ he)) hrun
      have hx := hcalls e (List.mem_append_right _ List.mem_cons_self)
      exact ⟨(Txn.commit_step ht₁ hcommit).1, hagree.trans (StockCounter.step ht₁ hx hcommit)⟩
  refine rel_mono (hrun.2 k id) ?_
  rintro s s' ⟨ns, hvalue, hsum⟩
  rw [hsum, add_sub_cancel_left, hvalue]
  exact counted_tally _ _

/-- An order is placed and delivered. -/
theorem stock_counts_lines_small : ∃ replies t',
    commitAll [(smallOrder, none), (smallDelivery, none)] smallTables = some (replies, t') ∧
      Option.Rel (fun s s' => Counted s.sYtd (t'.db.lineSum .sYtd (1, 1) - smallTables.db.lineSum .sYtd (1, 1)) s'.sYtd)
        (smallTables.db.row .stock (1, 1)) (t'.db.row .stock (1, 1)) := by
  have hrun : (commitAll [(smallOrder, none), (smallDelivery, none)] smallTables).isSome := by decide +kernel
  obtain ⟨⟨replies, t'⟩, hrun⟩ := Option.isSome_iff_exists.mp hrun
  have hcalls : ∀ e ∈ [(smallOrder, (none : Option HashOrder)), (smallDelivery, none)], e.1.Undivided := by
    simp [smallOrder, smallDelivery, Txn.Undivided]
  exact ⟨replies, t', hrun, stock_counts_lines smallTables_sound hcalls hrun .sYtd (1, 1)⟩

end TpccBench
