import TpccBench.Db.Books
import TpccBench.Load.Pipeline

/-!
# The money of a loaded database

A load writes every customer one payment of ten, and no delivered line that costs anything. So the
books of the customers are balanced from the start, and stay so
(`TpccBench.TPCCGenerator.money_conserved`).
-/

namespace TpccBench

open Prog

/-- What is found in one turn of a loop only. -/
theorem filter_flatMap_of_mem {ι A : Type} {l : List ι} (hnd : l.Nodup) {a : ι} (ha : a ∈ l) {f : ι → List A}
    {p : A → Bool} (h : ∀ b ∈ l, b ≠ a → (f b).filter p = []) : (l.flatMap f).filter p = (f a).filter p := by
  induction l with
  | nil => exact absurd ha List.not_mem_nil
  | cons b l ih =>
    obtain ⟨hb, hnd⟩ := List.nodup_cons.mp hnd
    obtain ⟨hhead, htail⟩ := List.forall_mem_cons.mp h
    rw [List.flatMap_cons, List.filter_append]
    rcases List.mem_cons.mp ha with rfl | ha
    · have hnil : (l.flatMap f).filter p = [] := by
        rw [List.filter_flatMap, List.flatMap_eq_nil_iff]
        exact fun c hc => htail c hc fun heq => hb (heq ▸ hc)
      rw [hnil, List.append_nil]
    · rw [hhead fun heq => hb (heq ▸ ha), List.nil_append]
      exact ih hnd ha htail

namespace TPCCGenerator

variable {g : TPCCGenerator} {warehouses : ℕ} {x : LoadData ℚ} {t t' : Tables ℚ} {w d c : ℤ}

/-- **The history row of a customer.** -/
theorem Makes.history_names (hx : g.Makes warehouses x) (hw : w ∈ idsTo warehouses)
    (hd : d ∈ idsTo g.districtsPerWarehouse) (hc : c ∈ idsTo g.customersPerDistrict) :
    (g.db warehouses x).history.filter (fun h => Db.Names w d c h) = [((x.warehouse w).district d).history c] := by
  have hnames : ∀ w' ∈ idsTo warehouses, ∀ d' ∈ idsTo g.districtsPerWarehouse, ∀ c' ∈ idsTo g.customersPerDistrict,
      (Db.Names w d c (((x.warehouse w').district d').history c') ↔ (w', d', c') = (w, d, c)) :=
    fun w' hw' d' hd' c' hc' => by
      rw [Db.Names, (((hx.at hw').at hd').history c' (mem_idsTo.mp hc').1 (mem_idsTo.mp hc').2).customer]
  have hnil : ∀ w' ∈ idsTo warehouses, ∀ d' ∈ idsTo g.districtsPerWarehouse, (w', d') ≠ (w, d) →
      ((idsTo g.customersPerDistrict).map ((x.warehouse w').district d').history).filter
        (fun h => Db.Names w d c h) = [] := fun w' hw' d' hd' hne => by
    refine List.filter_eq_nil_iff.mpr fun h hh hn => hne ?_
    obtain ⟨c', hc', rfl⟩ := List.mem_map.mp hh
    have heq := (hnames w' hw' d' hd' c' hc').mp (of_decide_eq_true hn)
    simp only [Prod.mk.injEq] at heq ⊢
    exact ⟨heq.1, heq.2.1⟩
  have hhistory : (g.db warehouses x).history = (idsTo warehouses).flatMap fun w =>
      (idsTo g.districtsPerWarehouse).flatMap fun d =>
        (idsTo g.customersPerDistrict).map ((x.warehouse w).district d).history := rfl
  rw [hhistory, filter_flatMap_of_mem (nodup_idsTo _) hw, filter_flatMap_of_mem (nodup_idsTo _) hd,
    List.map_eq_flatMap, filter_flatMap_of_mem (nodup_idsTo _) hc]
  · have hself : Db.Names w d c (((x.warehouse w).district d).history c) := (hnames w hw d hd c hc).mpr rfl
    rw [List.filter_singleton, decide_eq_true hself]
    rfl
  · intro c' hc' hne
    rw [List.filter_eq_nil_iff]
    intro h hh hn
    rw [List.mem_singleton.mp hh] at hn
    have heq := (hnames w hw d hd c' hc').mp (of_decide_eq_true hn)
    simp only [Prod.mk.injEq] at heq
    exact hne heq.2.2
  · exact fun d' hd' hne => hnil w hw d' hd' fun heq => hne (Prod.mk.inj heq).2
  · intro w' hw' hne
    rw [List.filter_flatMap, List.flatMap_eq_nil_iff]
    exact fun d' hd' => hnil w' hw' d' hd' fun heq => hne (Prod.mk.inj heq).1

/-- **The books of a customer that was loaded.** -/
theorem Makes.balanced (hx : g.Makes warehouses x) (hk : (g.db warehouses x).Keyed) (hw : w ∈ idsTo warehouses)
    (hd : d ∈ idsTo g.districtsPerWarehouse) (hc : c ∈ idsTo g.customersPerDistrict) :
    ∃ cust, (g.db warehouses x).Balanced w d c 0 cust := by
  have hy := (hx.at hw).at hd
  have hcust := hy.customerAt hc
  have hhist := hy.history c (mem_idsTo.mp hc).1 (mem_idsTo.mp hc).2
  have hrow : (g.db warehouses x).row .customer (w, d, c) = some (((x.warehouse w).district d).customer c) := by
    simp only [db, rowOf, hw, hd, hc, and_self, if_true]
  -- what was delivered before the load cost nothing
  have hdelivered : (g.db warehouses x).deliveredAmount w d c = 0 := by
    rw [(hx.pipeline hw hd).toQueue.deliveredAmount_eq hk]
    refine Finset.sum_eq_zero fun o ho => Finset.sum_eq_zero fun i _ => ?_
    by_cases hin : o ∈ idsTo g.customersPerDistrict ∧ i ∈ idsTo (((x.warehouse w).district d).order o).order.oOlCnt.toNat
    · have hline : (g.db warehouses x).row .orderLine (w, d, o, i) =
          some ((((x.warehouse w).district d).order o).line i) := by
        simp only [db, rowOf, hw, hd, hin, and_self, if_true]
      have horder : (g.db warehouses x).row .order (w, d, o) = some (((x.warehouse w).district d).order o).order := by
        simp only [db, rowOf, hw, hd, hin, and_self, if_true]
      have hold : ¬g.IsNew o := by
        have := (Finset.mem_Ico.mp ho).2
        rw [firstNew] at this
        rw [IsNew]
        omega
      rw [Db.lineCredit, hline, horder]
      simp only [(((hy.orderAt hin.1).lineAt hin.2).old hold).2, ite_self]
    · have hline : (g.db warehouses x).row .orderLine (w, d, o, i) = none := by
        simp only [db, rowOf, hw, hd, true_and, if_neg hin]
      exact Db.lineCredit_eq_zero fun line hl => absurd (hline.symm.trans hl) (by simp)
  have hpaid : (g.db warehouses x).hAmounts (Db.Names w d c) = 10 := by
    rw [Db.hAmounts, hx.history_names hw hd hc, List.map_singleton, List.sum_singleton, hhist.amount]
    norm_num
  refine ⟨_, ⟨hrow, ?_, ?_, ?_, ?_⟩⟩
  · rw [hcust.balance, hdelivered, hpaid]
    norm_num
  · rw [hcust.balance, hcust.ytdPayment, hdelivered]
    norm_num
  · rw [hcust.paymentCnt, List.countP_eq_length_filter, hx.history_names hw hd hc]
    rfl
  · rw [hcust.deliveryCnt]
    rfl

/-- **Money is conserved.** After every run of committed transactions on loaded tables: the
differences between what a warehouse has taken in, what its districts have, and what the history
rows say are those of the load; and the books of every customer are balanced. -/
theorem money_conserved (ht : g.Loads warehouses t) {calls : List (Txn ℚ × Option HashOrder)}
    {replies : List (Reply ℚ)} (hcalls : ∀ e ∈ calls, e.1.Whole) (h : commitAll calls t = some (replies, t')) :
    Db.SameGaps t.db t'.db ∧
      ∀ w ∈ idsTo warehouses, ∀ d ∈ idsTo g.districtsPerWarehouse, ∀ c ∈ idsTo g.customersPerDistrict,
        ∃ cust, t'.db.Balanced w d c
          ((takenAll w d calls replies).countP fun o => t'.db.owner w d o = some c) cust := by
  obtain ⟨hs, x, hx, hdb⟩ := ht.exists_db
  refine ⟨?_, fun w hw d hd c hc => ?_⟩
  · exact (commitAll_induction (I := fun _ _ db => Db.SameGaps t.db db) hs (Db.SameGaps.refl _)
      (fun _ _ e _ _ _ he hk hI hstep => hI.trans (Db.SameGaps.step hk (hcalls e he) hstep)) h).2
  · have hdIds : d ∈ Tx.districtIds := mem_districtIds (validDistrict_of_mem hd)
    have hfirst : 1 ≤ g.firstNew := by
      have := g.newOrders_le
      rw [firstNew]
      omega
    have hrun := commitAll_induction (I := fun calls replies db => calls.length = replies.length ∧
      ∃ k n, g.firstNew ≤ k ∧ takenAll w d calls replies = idsFrom g.firstNew k ∧ db.Queue w d k n ∧
        ∃ cust, db.Balanced w d c ((takenAll w d calls replies).countP fun o => db.owner w d o = some c) cust)
      hs ⟨rfl, _, _, le_rfl, by rw [idsFrom_self]; rfl, hdb ▸ (hx.pipeline hw hd).toQueue,
        hdb ▸ hx.balanced (hdb ▸ hs.keyed) hw hd hc⟩ ?_ h
    · obtain ⟨-, -, -, -, -, -, -, hbalanced⟩ := hrun
      exact hbalanced
    · rintro done dones e r db db' he hk ⟨hlen, k, n, hle, htaken, hq, cust, hb⟩ hstep
      have hat := hstep.at hk w hdIds
      obtain ⟨k', n', hkk, -, htaken', hq', -⟩ := hq.step hat
      obtain ⟨cust', hb'⟩ := hb.step hq hk (hcalls e he) hstep hdIds
      refine ⟨by simp [hlen], k', n', hle.trans hkk, ?_, hq', cust', ?_⟩
      · rw [takenAll_snoc hlen, htaken, htaken', idsFrom_append hle hkk]
      · -- the orders that were delivered before keep their customers
        have hsame : (takenAll w d done dones).countP (fun o => db'.owner w d o = some c) =
            (takenAll w d done dones).countP (fun o => db.owner w d o = some c) := by
          refine List.countP_congr fun o ho => ?_
          rw [htaken] at ho
          have hmem := mem_idsFrom.mp ho
          have hbounds := hq.bounds
          rw [(hq.credit_step hat).1 o (by omega) (by omega)]
        rw [takenAll_snoc hlen, List.countP_append, hsame]
        exact hb'

/-- The customer of the first district has paid, and was delivered two orders. -/
theorem money_conserved_generated : ∃ replies t', commitAll generatedCalls generatedTables = some (replies, t') ∧
    Db.SameGaps generatedTables.db t'.db ∧ ∃ cust, t'.db.Balanced 1 1 1
      ((takenAll 1 1 generatedCalls replies).countP fun o => t'.db.owner 1 1 o = some 1) cust := by
  obtain ⟨⟨replies, t'⟩, hrun⟩ := Option.isSome_iff_exists.mp generatedCalls_run
  have hcalls : ∀ e ∈ generatedCalls, e.1.Whole := by simp [generatedCalls, Txn.Whole]
  obtain ⟨hgaps, hbalanced⟩ := money_conserved generatedTables_loads hcalls hrun
  exact ⟨replies, t', hrun, hgaps, hbalanced 1 (by decide) 1 (by decide) 1 (by decide)⟩

end TPCCGenerator

end TpccBench
