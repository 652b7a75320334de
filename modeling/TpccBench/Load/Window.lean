import TpccBench.Db.LowStock
import TpccBench.Load.Pipeline

/-!
# The window of the stock level

`stockLevel` takes the twenty ids before the next order id of the district for ids of orders. A
district starts with as many orders as it has customers, and each order that is placed adds one, so
there are twenty exactly if these are together twenty or more
(`TpccBench.TPCCGenerator.window_valid_iff`). With fewer, the first id is not that of an order, and
looking up its lines fails.
-/

namespace TpccBench

open Prog

variable {F : Type}

/-! ### Counting orders -/

/-- The district that a transaction places an order in. -/
def Txn.home : Txn F → Option (ℤ × ℤ)
  | .newOrder _ w d _ _ _ _ => some (w, d)
  | .newOrderHome w d _ _ _ _ => some (w, d)
  | _ => none

/-- The orders that a run has placed in a district. -/
def placedAll (w d : ℤ) (calls : List (Txn F × Option HashOrder)) (replies : List (Reply F)) : ℕ :=
  (calls.zip replies).countP fun e => decide (e.1.1.home = some (w, d)) && e.2.committed

variable [Money F] {w d : ℤ} {db db' : Db F}

theorem Txn.Places.home {w' d' c : ℤ} {items : List NewOrderItem} {x : Txn F} (h : x.Places w' d' c items) :
    x.home = some (w', d') := by
  cases h <;> rfl

/-- **A step counts up the orders of a district** exactly if it places one there. -/
theorem Db.Step.nextOId {x : Txn F} {r : Reply F} (h : Step x r db db') {n : ℤ}
    (hn : (db.row .district (w, d)).map District.dNextOId = some n) :
    (db'.row .district (w, d)).map District.dNextOId =
      some (if x.home = some (w, d) ∧ r.committed = true then n + 1 else n) := by
  -- a step that places no order here
  have hsame : ∀ {db' : Db F}, SameOrders w d db db' → ¬(x.home = some (w, d) ∧ r.committed = true) →
      (db'.row .district (w, d)).map District.dNextOId =
        some (if x.home = some (w, d) ∧ r.committed = true then n + 1 else n) := fun hs hno => by
    rw [hs.nextOId, hn, if_neg hno]
  cases h with
  | refuse hx hr => exact hsame (SameOrders.refl _) fun hc => absurd (hr.symm.trans hc.2) (by simp)
  | @place _ _ w' d' c items _ ls p hx hr hp =>
    by_cases heq : (w', d') = (w, d)
    · obtain ⟨rfl, rfl⟩ := Prod.mk.inj heq
      rw [hp.district] at hn
      rw [(SameOrders.takeStock (w := w') (d := d') ls).nextOId, Placement.apply_district, if_pos rfl, if_pos ⟨hx.home, hr⟩,
        ← Option.some.inj hn]
      rfl
    · refine hsame ((SameOrders.placed hp heq).trans (SameOrders.takeStock ls)) fun hc => heq ?_
      exact Option.some.inj (hx.home.symm.trans hc.1)
  | take => exact hsame (SameOrders.takeStock _) fun hc => absurd hc.1 (by simp [Txn.home])
  | @pay _ _ _ _ _ _ _ _ _ _ cust cData p hx hp hcust =>
    have hnone : x.home = none := by cases hx <;> rfl
    exact hsame ((SameOrders.paid hp).trans (SameOrders.setCustomer ((PaidHome.apply_customer _).trans hcust)))
      fun hc => absurd hc.1 (by simp [hnone])
  | payHome hp => exact hsame (SameOrders.paid hp) fun hc => absurd hc.1 (by simp [Txn.home])
  | payRemote hx hcust =>
    have hnone : x.home = none := by cases hx <;> rfl
    exact hsame (SameOrders.setCustomer hcust) fun hc => absurd hc.1 (by simp [hnone])
  | deliver hships =>
    rw [hships.row_of_ne (by decide), hn, if_neg (by simp [Txn.home])]

variable {t t' : Tables F} {calls : List (Txn F × Option HashOrder)} {replies : List (Reply F)} {n : ℤ}

omit [Money F] in
theorem placedAll_snoc {e : Txn F × Option HashOrder} {r : Reply F} (hlen : calls.length = replies.length) :
    placedAll w d (calls ++ [e]) (replies ++ [r]) =
      placedAll w d calls replies + if e.1.home = some (w, d) ∧ r.committed = true then 1 else 0 := by
  rw [placedAll, List.zip_append hlen, List.countP_append]
  simp [placedAll, List.countP_cons]

/-- **A run counts up the orders of a district** by those it has placed there. -/
theorem nextOId_of_run (ht : t.Sound) (hn : (t.db.row .district (w, d)).map District.dNextOId = some n)
    (h : commitAll calls t = some (replies, t')) :
    (t'.db.row .district (w, d)).map District.dNextOId = some (n + placedAll w d calls replies) := by
  refine (commitAll_induction (I := fun calls replies db => calls.length = replies.length ∧
    (db.row .district (w, d)).map District.dNextOId = some (n + placedAll w d calls replies)) ht
    ⟨rfl, by rw [hn]; simp [placedAll]⟩ ?_ h).2.2
  rintro done dones e r db db' - - ⟨hlen, hnext⟩ hs
  refine ⟨by simp [hlen], ?_⟩
  rw [hs.nextOId hnext, placedAll_snoc hlen]
  split <;> push_cast <;> simp [add_assoc]

namespace TPCCGenerator

variable {g : TPCCGenerator} {warehouses : ℕ}

/-- **The orders of a district that was loaded**, after a run. -/
theorem Loads.queue_of_run (ht : g.Loads warehouses t) (h : commitAll calls t = some (replies, t'))
    (hw : w ∈ idsTo warehouses) (hd : d ∈ idsTo g.districtsPerWarehouse) :
    t'.Sound ∧ ∃ k, t'.db.Queue w d k (g.customersPerDistrict + 1 + placedAll w d calls replies) := by
  obtain ⟨hs, x, hx, hdb⟩ := ht.exists_db
  have hp : t.db.Queue w d g.firstNew (g.customersPerDistrict + 1) := hdb ▸ (hx.pipeline hw hd).toQueue
  have hdIds : d ∈ Tx.districtIds := mem_districtIds (validDistrict_of_mem hd)
  have hrun := commitAll_induction (I := fun _ _ db => ∃ k n, db.Queue w d k n) hs ⟨_, _, hp⟩
    (fun _ _ e r db db' _ hk ⟨k, n, hI⟩ hs => by
      obtain ⟨k', n', -, -, -, hq, -⟩ := hI.step (hs.at hk w hdIds)
      exact ⟨k', n', hq⟩) h
  obtain ⟨hs', k, n, hq⟩ := hrun
  obtain rfl := Option.some.inj (hq.nextOId.symm.trans (nextOId_of_run hs hp.nextOId h))
  exact ⟨hs', k, hq⟩

/-- **Stock level looks up orders only** exactly if the customers of the district, with the orders that the run has
placed in it, are twenty or more. If they are not, it fails. -/
theorem window_valid_iff (ht : g.Loads warehouses t) (h : commitAll calls t = some (replies, t'))
    (hw : w ∈ idsTo warehouses) (hd : d ∈ idsTo g.districtsPerWarehouse) (threshold : ℤ) :
    ((∀ o ∈ Op.stockLevelVisits w d threshold t', validOrder o) ↔
      20 ≤ g.customersPerDistrict + placedAll w d calls replies) ∧
    (g.customersPerDistrict + placedAll w d calls replies < 20 → Op.stockLevel w d threshold t' = none) := by
  obtain ⟨hs, k, hq⟩ := ht.queue_of_run h hw hd
  obtain ⟨dist, hdist, hnext⟩ := Option.map_eq_some_iff.mp hq.nextOId
  refine ⟨⟨fun hvalid => ?_, fun hmany o ho => ?_⟩, fun hfew => Op.stockLevel_eq_none hs hdist (by omega)⟩
  · have hfirst : 1 ≤ dist.dNextOId - 20 := (hvalid _ (Op.first_mem_stockLevelVisits hdist)).1
    omega
  · rw [Op.stockLevelVisits_apply hdist] at ho
    obtain ⟨hlow, hhigh⟩ := Op.mem_window.mp (visited_subset _ _ _ ho)
    -- the order before the next one is there, so its id makes a key
    obtain ⟨order, horder⟩ := Option.isSome_iff_exists.mp ((hq.order (dist.dNextOId - 1)).mpr (by omega))
    obtain ⟨l, hl⟩ := Option.isSome_iff_exists.mp (hs.keyed.keys horder)
    obtain ⟨key, hkey, -⟩ := Option.map_eq_some_iff.mp hl
    have hmax : dist.dNextOId - 1 ≤ Order.maxOrderId := (makeOrderKey_eq_some.mp hkey).1.2.2.1.2
    exact ⟨by omega, by omega⟩

/-- One customer, and one order. -/
theorem window_valid_generated : ∃ replies t', commitAll generatedCalls generatedTables = some (replies, t') ∧
    ((∀ o ∈ Op.stockLevelVisits 1 1 10 t', validOrder o) ↔ 20 ≤ 1 + placedAll 1 1 generatedCalls replies) := by
  obtain ⟨⟨replies, t'⟩, hrun⟩ := Option.isSome_iff_exists.mp generatedCalls_run
  exact ⟨replies, t', hrun, (window_valid_iff generatedTables_loads hrun (by decide) (by decide) 10).1⟩

/-- Right after the load of one customer. -/
theorem window_not_valid : ¬∀ (g : TPCCGenerator) (warehouses : ℕ) (t t' : Tables ℚ), g.Loads warehouses t →
    ∀ calls replies, commitAll calls t = some (replies, t') → ∀ w ∈ idsTo warehouses,
      ∀ d ∈ idsTo g.districtsPerWarehouse, ∀ threshold, ∀ o ∈ Op.stockLevelVisits w d threshold t', 1 ≤ o := by
  intro h
  have hrun : commitAll [] generatedTables = some ([], generatedTables) := rfl
  obtain ⟨-, k, hq⟩ := generatedTables_loads.queue_of_run hrun (w := 1) (by decide) (d := 1) (by decide)
  obtain ⟨dist, hdist, hid⟩ := Option.map_eq_some_iff.mp hq.nextOId
  have hfirst := h _ _ _ _ generatedTables_loads [] [] hrun 1 (by decide) 1 (by decide) 10 _
    (Op.first_mem_stockLevelVisits hdist)
  rw [hid] at hfirst
  exact absurd hfirst (by decide)

end TPCCGenerator

end TpccBench
