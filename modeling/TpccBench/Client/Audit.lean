import TpccBench.Client.Terminals
import TpccBench.Load.Money

/-!
# Terminals keep the database consistent

What the benchmark asks of a database at any time is stated here in its own terms, table by table
(`TpccBench.Db.OrdersConsistent`, `TpccBench.Db.MoneyConsistent`). The invariants of a run imply it. So with exact
amounts a database that was loaded at full scale is consistent after whatever the terminals have done to it
(`TpccBench.terminals_consistent`).
-/

namespace TpccBench

open Prog

/-! ### What is asked of the tables -/

namespace Db

section Orders

variable {F : Type} (db : Db F) (w d : ℤ)

def orderIds : Set ℤ := {o | (db.row .order (w, d, o)).isSome}

def newOrderIds : Set ℤ := {o | (db.row .newOrder (w, d, o)).isSome}

/-- The order lines of a district, by order and number. -/
def lineIds : Set (ℤ × ℤ) := {id | (db.row .orderLine (w, d, id.1, id.2)).isSome}

def olCnt (o : ℤ) : ℤ := (db.row .order (w, d, o)).elim 0 Order.oOlCnt

/-- **The orders of a district are consistent.** -/
structure OrdersConsistent : Prop where
  /-- `d_next_o_id` is one more than the greatest order id, and than the greatest id of the new orders. -/
  next : ∃ n, db.NextOId w d n ∧ IsGreatest (db.orderIds w d) (n - 1) ∧
    ((db.newOrderIds w d).Nonempty → IsGreatest (db.newOrderIds w d) (n - 1))
  /-- The new orders have consecutive ids. -/
  queue {least greatest : ℤ} : IsLeast (db.newOrderIds w d) least → IsGreatest (db.newOrderIds w d) greatest →
    greatest - least + 1 = (db.newOrderIds w d).ncard
  /-- The orders have as many lines as they say, all together. -/
  lines : finsum (db.olCnt w d) = (db.lineIds w d).ncard
  /-- An order has no carrier exactly if it is new. -/
  carrier {o : ℤ} {order : Order} : db.row .order (w, d, o) = some order →
    (order.oCarrierId = Order.nullCarrierId ↔ o ∈ db.newOrderIds w d)
  /-- An order has as many lines as it says. -/
  count {o : ℤ} {order : Order} : db.row .order (w, d, o) = some order →
    order.oOlCnt = {i | (o, i) ∈ db.lineIds w d}.ncard
  /-- A line has no delivery date exactly if its order has no carrier. -/
  delivery {o i : ℤ} {order : Order} {line : OrderLine F} : db.row .order (w, d, o) = some order →
    db.row .orderLine (w, d, o, i) = some line →
      (line.olDeliveryD.chars = [] ↔ order.oCarrierId = Order.nullCarrierId)

end Orders

/-- **The money of a district is consistent.** -/
structure MoneyConsistent (db : Db ℚ) (w d : ℤ) : Prop where
  /-- `w_ytd` is the sum of the `d_ytd`. -/
  districts : db.wYtd w = db.dYtds w
  /-- `w_ytd` is the sum of the `h_amount` of the warehouse. -/
  warehouse : db.wYtd w = db.hAmounts fun h => h.hWId = w
  /-- `d_ytd` is the sum of the `h_amount` of the district. -/
  district : db.dYtd w d = db.hAmounts fun h => h.hWId = w ∧ h.hDId = d
  /-- `c_balance` is what was delivered to the customer, less what he has paid. -/
  balance {c : ℤ} {cust : Customer ℚ} : db.row .customer (w, d, c) = some cust →
    cust.cBalance = db.deliveredAmount w d c - db.hAmounts (Names w d c)
  /-- `c_balance` and `c_ytd_payment` are what was delivered. -/
  ytdPayment {c : ℤ} {cust : Customer ℚ} : db.row .customer (w, d, c) = some cust →
    cust.cBalance + cust.cYtdPayment = db.deliveredAmount w d c

/-! ### Orders -/

variable {F : Type} {db : Db F} {w d k n : ℤ}

theorem Queue.orderIds_eq (h : db.Queue w d k n) : db.orderIds w d = Set.Ico 1 n := Set.ext h.order

theorem Queue.newOrderIds_eq (h : db.Queue w d k n) : db.newOrderIds w d = Set.Ico k n := Set.ext h.newOrder

theorem isGreatest_Ico {k n : ℤ} (h : k < n) : IsGreatest (Set.Ico k n) (n - 1) := by
  refine ⟨⟨by omega, by omega⟩, ?_⟩
  intro o ho
  have hlt := ho.2
  omega

/-- The lines of the orders, as pairs. -/
theorem Queue.lineIds_eq (h : db.Queue w d k n) : db.lineIds w d =
    (((Finset.Ico 1 n).sigma fun o => Finset.Icc 1 (db.olCnt w d o)).map (Equiv.sigmaEquivProd ℤ ℤ).toEmbedding :) := by
  ext ⟨o, i⟩
  have hmem : (o, i) ∈ db.lineIds w d ↔ (1 ≤ o ∧ o < n) ∧ 1 ≤ i ∧ i ≤ db.olCnt w d o := by
    rw [← h.order]
    cases horder : db.row .order (w, d, o) with
    | none =>
      refine iff_of_false ?_ (by simp)
      intro hline
      exact Option.not_isSome_iff_eq_none.mpr horder (h.lineOrder hline)
    | some order =>
      rw [olCnt, horder]
      exact (h.line horder i).trans (by simp)
  rw [hmem]
  simp

/-- **The orders of a pipeline are consistent.** -/
theorem Pipeline.ordersConsistent (h : db.Pipeline w d k n) (hn : 2 ≤ n)
    (hcnt : ∀ o order, db.row .order (w, d, o) = some order → 0 ≤ order.oOlCnt) : db.OrdersConsistent w d where
  next := by
    refine ⟨n, h.nextOId, ?_, ?_⟩
    · rw [h.toQueue.orderIds_eq]
      exact isGreatest_Ico (by omega)
    · rw [h.toQueue.newOrderIds_eq]
      intro hne
      exact isGreatest_Ico (Set.nonempty_Ico.mp hne)
  queue {least greatest} hleast hgreatest := by
    rw [h.toQueue.newOrderIds_eq] at hleast hgreatest ⊢
    have hlt : k < n := Set.nonempty_Ico.mp ⟨_, hleast.1⟩
    obtain rfl := (isLeast_Ico hlt).unique hleast
    obtain rfl := (isGreatest_Ico hlt).unique hgreatest
    rw [← Finset.coe_Ico, Set.ncard_coe_finset, Int.card_Ico]
    omega
  lines := by
    rw [h.toQueue.lineIds_eq, Set.ncard_coe_finset, Finset.card_map, Finset.card_sigma,
      finsum_eq_sum_of_support_subset (s := Finset.Ico 1 n)]
    · push_cast
      refine Finset.sum_congr rfl fun o _ => ?_
      rw [Int.card_Icc, olCnt]
      cases horder : db.row .order (w, d, o) with
      | none => rfl
      | some order =>
        have hnn := hcnt o order horder
        rw [Option.elim_some]
        omega
    · intro o hne
      rw [Finset.mem_coe, Finset.mem_Ico, ← h.order]
      by_contra hnone
      rw [Option.not_isSome_iff_eq_none] at hnone
      refine hne ?_
      rw [olCnt, hnone]
      rfl
  carrier {o order} horder := by
    have hin := (h.order o).mp (Option.isSome_of_eq_some horder)
    rw [h.carrier horder, h.toQueue.newOrderIds_eq, Set.mem_Ico]
    exact (and_iff_left hin.2).symm
  count {o order} horder := by
    have hnn := hcnt o order horder
    have hset : {i | (o, i) ∈ db.lineIds w d} = (Finset.Icc 1 order.oOlCnt : Finset ℤ) := by
      ext i
      rw [Finset.coe_Icc]
      exact h.line horder i
    rw [hset, Set.ncard_coe_finset, Int.card_Icc]
    omega
  delivery {o i order line} horder hline := by
    rw [h.carrier horder, h.deliveryD hline]

end Db

section Counts

variable {F : Type} [Money F] {t t' : Tables F} {calls : List (Txn F × Option HashOrder)} {replies : List (Reply F)}
  {w d : ℤ}

/-- An order has no negative count of lines after a run, if none had before. -/
theorem counts_of_run (ht : t.Sound) (hd : d ∈ Tx.districtIds)
    (hcnt : ∀ o order, t.db.book w d o = some order → 0 ≤ order.oOlCnt) (h : commitAll calls t = some (replies, t')) :
    ∀ o order, t'.db.book w d o = some order → 0 ≤ order.oOlCnt := by
  refine (commitAll_induction (I := fun _ _ db => ∀ o order, db.book w d o = some order → 0 ≤ order.oOlCnt)
    ht hcnt ?_ h).2
  intro done dones e r db db' _ hk hcnt hs o order horder
  rcases hs.book hk hd (w := w) with hsame | ⟨c, items, p, -, hplaced⟩
  · exact hcnt o order ((hsame o).symm.trans horder)
  · rw [hplaced] at horder
    split at horder
    · obtain rfl := Option.some.inj horder
      exact Int.natCast_nonneg _
    · exact hcnt o order horder

end Counts

/-! ### Money -/

section Money

variable {t t' : Tables ℚ} {calls : List (Txn ℚ × Option HashOrder)} {replies : List (Reply ℚ)} {w d k n : ℤ}

/-- **The books after a run**: of the warehouses, and of the customers of a district. -/
theorem books_of_run (ht : t.Sound) (hcalls : ∀ e ∈ calls, e.1.Whole) (hd : d ∈ Tx.districtIds)
    (hq : t.db.Queue w d k n)
    (hb : ∀ c cust, t.db.row .customer (w, d, c) = some cust → ∃ m, t.db.Balanced w d c m cust)
    (h : commitAll calls t = some (replies, t')) :
    Db.SameGaps t.db t'.db ∧
      ∀ c cust, t'.db.row .customer (w, d, c) = some cust → ∃ m, t'.db.Balanced w d c m cust := by
  have hrun := commitAll_induction (I := fun _ _ db => Db.SameGaps t.db db ∧ (∃ k n, db.Queue w d k n) ∧
    ∀ c cust, db.row .customer (w, d, c) = some cust → ∃ m, db.Balanced w d c m cust) ht
    ⟨Db.SameGaps.refl _, ⟨k, n, hq⟩, hb⟩ ?_ h
  · exact ⟨hrun.2.1, hrun.2.2.2⟩
  · rintro done dones e r db db' he hk ⟨hgaps, ⟨k, n, hq⟩, hb⟩ hstep
    obtain ⟨k', n', -, -, -, hq', -⟩ := hq.step (hstep.at hk w hd)
    refine ⟨hgaps.trans (Db.SameGaps.step hk (hcalls e he) hstep), ⟨k', n', hq'⟩, ?_⟩
    intro c cust' hcust'
    -- the customer was there before
    obtain ⟨cust, hcust⟩ := Option.isSome_iff_exists.mp
      ((hstep.customer (w, d, c)).symm.trans (Option.isSome_of_eq_some hcust'))
    obtain ⟨m, hm⟩ := hb c cust hcust
    obtain ⟨cust'', hm'⟩ := hm.step hq hk (hcalls e he) hstep hd
    obtain rfl := Option.some.inj (hm'.row.symm.trans hcust')
    exact ⟨_, hm'⟩

end Money

namespace TPCCGenerator

variable {g : TPCCGenerator} {warehouses : ℕ} {x : LoadData ℚ} {t : Tables ℚ} {w d : ℤ}

theorem sum_of_tens {l : List (History ℚ)} (h : ∀ e ∈ l, e.hAmount = 10) : (l.map History.hAmount).sum = 10 * l.length := by
  have hrep : l.map History.hAmount = List.replicate l.length 10 := by
    refine List.eq_replicate_iff.mpr ⟨List.length_map _, ?_⟩
    intro a ha
    obtain ⟨e, he, rfl⟩ := List.mem_map.mp ha
    exact h e he
  rw [hrep, List.sum_replicate, nsmul_eq_mul, mul_comm]

/-- The loaded history rows of a warehouse. -/
theorem Makes.history_warehouse (hx : g.Makes warehouses x) (hw : w ∈ idsTo warehouses) :
    (g.db warehouses x).hAmounts (fun h => h.hWId = w) = 10 * (g.districtsPerWarehouse * g.customersPerDistrict) := by
  have hrows : ∀ w' ∈ idsTo warehouses, ∀ h ∈ (idsTo g.districtsPerWarehouse).flatMap fun d =>
      (idsTo g.customersPerDistrict).map fun c => ((x.warehouse w').district d).history c,
        h.hWId = w' ∧ h.hAmount = 10 := by
    intro w' hw' h hh
    obtain ⟨d, hd, hh⟩ := List.mem_flatMap.mp hh
    obtain ⟨c, hc, rfl⟩ := List.mem_map.mp hh
    have hmade := ((hx.at hw').at hd).history c (mem_idsTo.mp hc).1 (mem_idsTo.mp hc).2
    exact ⟨(Prod.mk.inj hmade.paidAt).1, by rw [hmade.amount]; norm_num⟩
  have hfilter : (g.db warehouses x).history.filter (fun h => h.hWId = w) =
      (idsTo g.districtsPerWarehouse).flatMap fun d =>
        (idsTo g.customersPerDistrict).map fun c => ((x.warehouse w).district d).history c := by
    rw [db, filter_flatMap_of_mem (nodup_idsTo _) hw]
    · refine List.filter_eq_self.mpr fun h hh => ?_
      exact decide_eq_true (hrows w hw h hh).1
    · intro w' hw' hne
      refine List.filter_eq_nil_iff.mpr fun h hh heq => hne ?_
      exact (hrows w' hw' h hh).1.symm.trans (of_decide_eq_true heq)
  rw [Db.hAmounts, hfilter, sum_of_tens fun e he => (hrows w hw e he).2, List.length_flatMap]
  simp [length_idsTo]

/-- The loaded history rows of a district. -/
theorem Makes.history_district (hx : g.Makes warehouses x) (hw : w ∈ idsTo warehouses)
    (hd : d ∈ idsTo g.districtsPerWarehouse) :
    (g.db warehouses x).hAmounts (fun h => h.hWId = w ∧ h.hDId = d) = 10 * g.customersPerDistrict := by
  have hrow : ∀ w' ∈ idsTo warehouses, ∀ d' ∈ idsTo g.districtsPerWarehouse, ∀ h ∈
      (idsTo g.customersPerDistrict).map fun c => ((x.warehouse w').district d').history c,
        (h.hWId = w' ∧ h.hDId = d') ∧ h.hAmount = 10 := by
    intro w' hw' d' hd' h hh
    obtain ⟨c, hc, rfl⟩ := List.mem_map.mp hh
    have hmade := ((hx.at hw').at hd').history c (mem_idsTo.mp hc).1 (mem_idsTo.mp hc).2
    exact ⟨Prod.mk.inj hmade.paidAt, by rw [hmade.amount]; norm_num⟩
  have hfilter : (g.db warehouses x).history.filter (fun h => h.hWId = w ∧ h.hDId = d) =
      (idsTo g.customersPerDistrict).map fun c => ((x.warehouse w).district d).history c := by
    rw [db, filter_flatMap_of_mem (nodup_idsTo _) hw, filter_flatMap_of_mem (nodup_idsTo _) hd]
    · refine List.filter_eq_self.mpr fun h hh => ?_
      exact decide_eq_true (hrow w hw d hd h hh).1
    · intro d' hd' hne
      refine List.filter_eq_nil_iff.mpr fun h hh heq => hne ?_
      exact (hrow w hw d' hd' h hh).1.2.symm.trans (of_decide_eq_true heq).2
    · intro w' hw' hne
      refine List.filter_eq_nil_iff.mpr fun h hh heq => hne ?_
      obtain ⟨d', hd', hh⟩ := List.mem_flatMap.mp hh
      exact (hrow w' hw' d' hd' h hh).1.1.symm.trans (of_decide_eq_true heq).1
  rw [Db.hAmounts, hfilter, sum_of_tens fun e he => (hrow w hw d hd e he).2, List.length_map, length_idsTo]

/-- What a district has taken in before the load. -/
theorem Makes.dYtd (hx : g.Makes warehouses x) (hw : w ∈ idsTo warehouses) (hd : d ∈ idsTo g.districtsPerWarehouse) :
    (g.db warehouses x).dYtd w d = 30000 := by
  have hrow : (g.db warehouses x).row .district (w, d) = some ((x.warehouse w).district d).district := by
    simp only [db, rowOf, hw, hd, and_self, if_true]
  rw [Db.dYtd, hrow, Option.elim_some, ((hx.at hw).at hd).ytd]
  norm_num

/-- **At full scale** what the warehouses and districts have taken in is what the customers have paid. -/
theorem Makes.full_scale (hx : g.Makes warehouses x) (hdistricts : g.districtsPerWarehouse = 10)
    (hcustomers : g.customersPerDistrict = 3000) (hw : w ∈ idsTo warehouses) (hd : d ∈ idsTo g.districtsPerWarehouse) :
    (g.db warehouses x).wYtd w = (g.db warehouses x).dYtds w ∧
      (g.db warehouses x).wYtd w = (g.db warehouses x).hAmounts (fun h => h.hWId = w) ∧
      (g.db warehouses x).dYtd w d = (g.db warehouses x).hAmounts fun h => h.hWId = w ∧ h.hDId = d := by
  have hrow : (g.db warehouses x).row .warehouse w = some (x.warehouse w).warehouse := by
    simp only [db, rowOf, hw, if_true]
  have hware : (g.db warehouses x).wYtd w = 300000 := by
    rw [Db.wYtd, hrow, Option.elim_some, (hx.at hw).ytd]
    norm_num
  have hds : (g.db warehouses x).dYtds w = 300000 := by
    have hall : Tx.districtIds.map ((g.db warehouses x).dYtd w) = List.replicate 10 30000 := by
      refine List.eq_replicate_iff.mpr ⟨rfl, ?_⟩
      intro a ha
      obtain ⟨d', hd', rfl⟩ := List.mem_map.mp ha
      refine hx.dYtd hw ?_
      rw [hdistricts]
      have hids : Tx.districtIds = idsTo 10 := by decide
      rwa [← hids]
    rw [Db.dYtds, hall, List.sum_replicate]
    norm_num
  refine ⟨hware.trans hds.symm, ?_, ?_⟩
  · rw [hware, hx.history_warehouse hw, hdistricts, hcustomers]
    norm_num
  · rw [hx.dYtd hw hd, hx.history_district hw hd, hcustomers]
    norm_num

end TPCCGenerator

/-! ### Terminals -/

/-- **What a client may ask for** is a transaction in one piece, and a delivery has a carrier. -/
theorem TPCCClient.Asks.txn {client : TPCCClient} {r : Request ℚ} (h : client.Asks r) {o : HashOrder} {x : Txn ℚ}
    (hx : r.txn o = some x) : x.Whole ∧ x.Carries := by
  cases h with
  | stockLevel => exact absurd hx.symm (Option.some_ne_none _)
  | orderStatus => exact absurd hx.symm (Option.some_ne_none _)
  | delivery _ hc =>
    obtain rfl := Option.some.inj hx
    exact ⟨trivial, hc⟩
  | @payment _ _ _ _ who =>
    cases who with
    | id c =>
      obtain rfl := Option.some.inj hx
      exact ⟨trivial, trivial⟩
    | lastName cLast =>
      obtain rfl := Option.some.inj hx
      exact ⟨trivial, trivial⟩
  | newOrder =>
    obtain rfl := Option.some.inj hx
    exact ⟨trivial, trivial⟩

variable {ι : Type} [DecidableEq ι] {clients : ι → TPCCClient} {calls : List (ι × ClientCall)} {g : TPCCGenerator}
  {warehouses : ℕ}

omit [DecidableEq ι] in
theorem Terminals.Answered.committed {answers : List (Request ℚ × Option Bool)}
    (h : Terminals.Answered clients calls answers) : ∀ e ∈ TpccBench.committed calls answers, e.1.Whole ∧ e.1.Carries := by
  intro e he
  obtain ⟨answer, hanswer, he⟩ := List.mem_flatMap.mp he
  obtain ⟨x, hx, rfl⟩ := List.mem_map.mp he
  exact (h.2 answer hanswer).1.txn (Option.mem_toList.mp hx)

/-- **A run of committed transactions** leaves the tables of a full load consistent. -/
theorem TPCCGenerator.Loads.consistent_of_run {t t' : Tables ℚ} (ht : g.Loads warehouses t)
    (hdistricts : g.districtsPerWarehouse = 10) (hcustomers : g.customersPerDistrict = 3000)
    {txns : List (Txn ℚ × Option HashOrder)} {replies : List (Reply ℚ)}
    (hcommitted : ∀ e ∈ txns, e.1.Whole ∧ e.1.Carries) (hreplies : commitAll txns t = some (replies, t')) {w d : ℤ}
    (hw : w ∈ idsTo warehouses) (hd : d ∈ idsTo g.districtsPerWarehouse) :
    t'.db.OrdersConsistent w d ∧ t'.db.MoneyConsistent w d := by
  obtain ⟨hs, x, hx, hdb⟩ := ht.exists_db
  have hdIds : d ∈ Tx.districtIds := mem_districtIds (TPCCGenerator.validDistrict_of_mem hd)
  have hp := hx.pipeline hw hd
  obtain ⟨hdistrictsYtd, hwareYtd, hdistYtd⟩ := hx.full_scale hdistricts hcustomers hw hd
  have hbalanced : ∀ c cust, t.db.row .customer (w, d, c) = some cust → ∃ m, t.db.Balanced w d c m cust := by
    intro c cust hcust
    rw [hdb] at hcust ⊢
    have hc := (TPCCGenerator.db_customer_isSome.mp (Option.isSome_of_eq_some hcust)).2.2
    obtain ⟨cust', hb⟩ := hx.balanced (hdb ▸ hs.keyed) hw hd hc
    obtain rfl := Option.some.inj (hb.row.symm.trans hcust)
    exact ⟨0, hb⟩
  rw [← hdb] at hp hdistrictsYtd hwareYtd hdistYtd
  obtain ⟨hgaps, hbooks⟩ := books_of_run hs (fun e he => (hcommitted e he).1) hdIds hp.toQueue hbalanced hreplies
  obtain ⟨-, k, n, -, hn, -, hp'⟩ := pipeline_of_run hs (fun e he => (hcommitted e he).2) hdIds hp hreplies
  constructor
  · refine hp'.ordersConsistent (by omega) ?_
    intro o order horder
    exact counts_of_run hs hdIds (fun o order => ht.book_cnt) hreplies o _ (Option.map_eq_some_iff.mpr ⟨order, horder, rfl⟩)
  · refine ⟨?_, ?_, ?_, ?_, ?_⟩
    · have hgap := hgaps.districts w
      linarith
    · have hgap := hgaps.warehouse w
      linarith
    · have hgap := hgaps.district w d
      linarith
    · intro c cust hcust
      obtain ⟨m, hm⟩ := hbooks c cust hcust
      exact hm.balance
    · intro c cust hcust
      obtain ⟨m, hm⟩ := hbooks c cust hcust
      exact hm.ytdPayment

/-- **The database stays consistent.** With exact amounts, and on tables that were loaded at full scale: whatever the
terminals ask for, in whatever order, as long as the ids of the orders fit, every district is consistent
afterwards. -/
theorem terminals_consistent {t : Tables ℚ} (ht : g.Loads warehouses t) (hitems : g.numItems = Item.numItems)
    (hdistricts : g.districtsPerWarehouse = 10) (hcustomers : g.customersPerDistrict = 3000)
    (hclients : ∀ i, (clients i).Servable g warehouses) (drawn : ι → ℕ)
    (hids : Terminals.IdsFit clients ⟨t, drawn⟩ calls) :
    ∃ answers s, Terminals.run clients calls ⟨t, drawn⟩ = some (answers, s) ∧
      Terminals.Answered clients calls answers ∧
      ∀ w ∈ idsTo warehouses, ∀ d ∈ idsTo g.districtsPerWarehouse,
        s.tables.db.OrdersConsistent w d ∧ s.tables.db.MoneyConsistent w d := by
  have hserves : ∀ i, (clients i).Serves t := by
    intro i
    exact ht.serves (hclients i).builtWith hitems (by omega)
  obtain ⟨answers, s, hrun, hanswered, hserves'⟩ :=
    Terminals.run_serves hclients hitems (s := ⟨t, drawn⟩) hserves hids
  refine ⟨answers, s, hrun, hanswered, ?_⟩
  intro w hw d hd
  obtain ⟨replies, hreplies, -⟩ := requests_commit hrun
  exact ht.consistent_of_run hdistricts hcustomers hanswered.committed hreplies hw hd

/-! ### Full scale -/

theorem full_items : 1 ≤ 100000 ∧ 100000 ≤ 100000 := by decide

theorem full_customers : 1 ≤ 3000 ∧ 3000 ≤ 3000 := by decide

/-- Three thousand customers in each district. -/
def fullGenerator : TPCCGenerator :=
  { TPCCGenerator.cycling 0 100000 3000 full_items full_customers with random := .lettered 0 }

theorem exists_fullTables : ∃ t : Tables ℚ, fullGenerator.Loads 1 t :=
  TPCCGenerator.exists_loads (by decide) (by decide) (by decide)

/-- A client that draws the greatest number each time. -/
def fullClient : TPCCClient :=
  { TPCCClient.greatestClient ⟨0, 0, 0⟩ with customersPerDistrict := 3000, customers_range := full_customers }

theorem fullClient_servable : fullClient.Servable fullGenerator 1 where
  builtWith := ⟨rfl, rfl, rfl, rfl⟩
  nonNegative := ⟨le_rfl, le_rfl, le_rfl⟩
  sumsFit :=
    { cLast := RandomGenerator.sumsFit_of_le (c := 0) (e := 10) _ rfl (by decide) (by decide) (by decide)
      cId := RandomGenerator.sumsFit_of_le (c := 0) (e := 12) _ rfl (by decide) (by decide) (by decide)
      olIId := RandomGenerator.sumsFit_of_le (c := 0) (e := 17) _ rfl (by decide) (by decide) (by decide) }

theorem terminals_consistent_full :
    ∃ (t : Tables ℚ) (answers : List (Request ℚ × Option Bool)) (s : Terminals Bool ℚ), fullGenerator.Loads 1 t ∧
      Terminals.run (fun _ => fullClient) pairOfCalls ⟨t, fun _ => 0⟩ = some (answers, s) ∧
      s.tables.db.OrdersConsistent 1 1 ∧ s.tables.db.MoneyConsistent 1 1 := by
  obtain ⟨t, ht⟩ := exists_fullTables
  have hclients : ∀ i : Bool, ((fun _ => fullClient : Bool → TPCCClient) i).Servable fullGenerator 1 :=
    fun _ => fullClient_servable
  have hids : Terminals.IdsFit (fun _ => fullClient) ⟨t, fun _ => 0⟩ pairOfCalls :=
    Terminals.idsFit_of_length ht hclients (fun _ => 0) (by decide)
  obtain ⟨answers, s, hrun, -, hconsistent⟩ := terminals_consistent ht rfl rfl rfl hclients (fun _ => 0) hids
  exact ⟨t, answers, s, ht, hrun, hconsistent 1 (by decide) 1 (by decide)⟩

end TpccBench
