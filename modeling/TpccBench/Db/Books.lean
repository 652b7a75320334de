import Mathlib.Algebra.BigOperators.Finprod
import Mathlib.Algebra.Order.Interval.Finset.SuccPred
import Mathlib.Data.Int.Interval
import Mathlib.Tactic.Ring
import TpccBench.Db.Pipeline

/-!
# The books

With exact amounts, what the warehouses and districts have taken in is what the history rows
say, and what a customer owes is what was delivered less what was paid
(`TpccBench.Db.Balanced`). A delivery credits the lines of the head of the queue, so the sum over
the delivered lines is a sum over the orders before the head
(`TpccBench.Db.Queue.deliveredAmount_eq`).
-/

namespace TpccBench

open Prog

/-! ### Sums over the tables -/

/-- A transaction that is not one part of a payment only. -/
def Txn.Whole : Txn ℚ → Prop
  | .paymentHome .. => False
  | .paymentRemote .. => False
  | .paymentRemoteByName .. => False
  | _ => True

namespace Db

section Sums

variable (db : Db ℚ)

/-- The `w_ytd` of a warehouse. -/
def wYtd (w : ℤ) : ℚ := (db.row .warehouse w).elim 0 Warehouse.wYtd

/-- The `d_ytd` of a district. -/
def dYtd (w d : ℤ) : ℚ := (db.row .district (w, d)).elim 0 District.dYtd

/-- The sum of the `h_amount` of some history rows. -/
def hAmounts (p : History ℚ → Prop) [DecidablePred p] : ℚ := ((db.history.filter p).map History.hAmount).sum

/-- The `ol_amount` of a line, if it is a delivered line of an order of the customer. -/
def lineCredit (w d c o i : ℤ) : ℚ :=
  match db.row .order (w, d, o), db.row .orderLine (w, d, o, i) with
  | some order, some line => if order.oCId = c ∧ line.olDeliveryD.chars ≠ [] then line.olAmount else 0
  | _, _ => 0

/-- **The sum of `ol_amount`** over the delivered lines of the orders of a customer. -/
noncomputable def deliveredAmount (w d c : ℤ) : ℚ := finsum fun id : ℤ × ℤ => db.lineCredit w d c id.1 id.2

/-- The delivered lines of an order. -/
noncomputable def orderCredit (w d c o : ℤ) : ℚ := ∑ i ∈ Finset.Icc 1 Order.maxOlCnt, db.lineCredit w d c o i

end Sums

/-- The history rows that name a customer. -/
def Names (w d c : ℤ) (h : History ℚ) : Prop := (h.hCWId, h.hCDId, h.hCId) = (w, d, c)

instance (w d c : ℤ) : DecidablePred (Names w d c) := fun _ => inferInstanceAs (Decidable (_ = _))

/-- **The books of a customer**: the balance is what was delivered less what was paid. -/
structure Balanced (db : Db ℚ) (w d c : ℤ) (deliveries : ℕ) (cust : Customer ℚ) : Prop where
  row : db.row .customer (w, d, c) = some cust
  balance : cust.cBalance = db.deliveredAmount w d c - db.hAmounts (Names w d c)
  ytdPayment : cust.cBalance + cust.cYtdPayment = db.deliveredAmount w d c
  paymentCnt : cust.cPaymentCnt = (db.history.countP fun h => Names w d c h : ℕ)
  deliveryCnt : cust.cDeliveryCnt = deliveries

variable {db db' : Db ℚ} {w d c k n o : ℤ}

/-- **The counters fit**: they are numbers in the model, and the source has an `int32_t` for each, which only a history
as long as its range can make overflow. -/
theorem Balanced.counters_fit {deliveries : ℕ} {cust : Customer ℚ} (h : db.Balanced w d c deliveries cust)
    (hhistory : db.history.length < 2147483648) (hdeliveries : deliveries < 2147483648) :
    FitsInt32 cust.cPaymentCnt ∧ FitsInt32 cust.cDeliveryCnt := by
  have hle : (db.history.countP fun r => Names w d c r) ≤ db.history.length := List.countP_le_length
  simp only [Word.Fits, h.paymentCnt, h.deliveryCnt]
  norm_num
  omega

/-! ### What is credited -/

theorem lineCredit_eq_zero (h : ∀ line, db.row .orderLine (w, d, o, n) = some line → line.olDeliveryD.chars = []) :
    db.lineCredit w d c o n = 0 := by
  rw [lineCredit]
  split
  · next line _ hl => rw [if_neg fun hc => hc.2 (h _ hl)]
  · rfl

/-- **The orders before the head of the queue** are credited. -/
theorem Queue.deliveredAmount_eq (h : db.Queue w d k n) (hk : db.Keyed) :
    db.deliveredAmount w d c = ∑ o ∈ Finset.Ico 1 k, db.orderCredit w d c o := by
  rw [deliveredAmount, finsum_eq_sum_of_support_subset (s := Finset.Ico 1 k ×ˢ Finset.Icc 1 Order.maxOlCnt),
    Finset.sum_product]
  · rfl
  · rintro ⟨o, i⟩ hne
    have hne : db.lineCredit w d c o i ≠ 0 := hne
    -- a line that is credited has a key, and a date
    obtain ⟨line, hl, hdate⟩ : ∃ line, db.row .orderLine (w, d, o, i) = some line ∧ line.olDeliveryD.chars ≠ [] := by
      by_contra hall
      push Not at hall
      exact hne (lineCredit_eq_zero hall)
    have hi := (primary_orderLine_iff.mp (hk.keys hl)).2.2.2.1
    have ho := (h.order o).mp (h.lineOrder (by rw [hl]; rfl))
    have hlt : ¬k ≤ o := fun hle => hdate ((h.deliveryD hl).mpr hle)
    simp only [Finset.coe_product, Finset.coe_Ico, Finset.coe_Icc, Set.mem_prod, Set.mem_Ico, Set.mem_Icc]
    have hi₁ : 1 ≤ i := hi.1
    have hi₂ : i ≤ Order.maxOlCnt := hi.2
    omega

/-- What is credited for an order depends on its row and its lines. -/
theorem orderCredit_congr (horder : (db'.row .order (w, d, o)).map Order.oCId = (db.row .order (w, d, o)).map Order.oCId)
    (hline : ∀ i, db'.row .orderLine (w, d, o, i) = db.row .orderLine (w, d, o, i)) :
    db'.orderCredit w d c o = db.orderCredit w d c o := by
  refine Finset.sum_congr rfl fun i _ => ?_
  rw [lineCredit, lineCredit, hline]
  cases h : db.row .order (w, d, o) with
  | none =>
    rw [h] at horder
    rw [Option.map_eq_none_iff.mp horder]
  | some order =>
    rw [h] at horder
    obtain ⟨order', h', hc⟩ := Option.map_eq_some_iff.mp horder
    rw [h']
    cases db.row .orderLine (w, d, o, i) with
    | none => rfl
    | some line => exact if_congr (by rw [hc]) rfl rfl

/-- **A delivered order** is credited with the amounts of its lines. -/
theorem Queue.credit_ship (h : db.Queue w d k n) (hk : db.Keyed) {carrierId : ℤ} {now : List Char} {p : Shipment ℚ}
    (hp : p.Valid w d k now db) :
    (p.apply w d k carrierId db).orderCredit w d c k = if p.order.oCId = c then p.total else 0 := by
  have horder : (p.apply w d k carrierId db).row .order (w, d, k) = some (p.order.delivered carrierId) := by
    rw [Shipment.apply_order, if_pos rfl]
  have hin : ∀ j < p.order.oOlCnt.toNat, (p.apply w d k carrierId db).lineCredit w d c k ((j : ℤ) + 1) =
      if p.order.oCId = c then (p.line j).olAmount else 0 := fun j hj => by
    rw [lineCredit, horder, hp.apply_line hk hj]
    obtain ⟨hdate, hlen⟩ := (hp.line j hj).2.2
    have hne : p.olDeliveryD.chars ≠ [] := fun hempty => by
      rw [← CString.strcpy_eq_some hdate, hempty] at hlen
      exact absurd hlen (by decide)
    have hcust : (p.order.delivered carrierId).oCId = p.order.oCId := rfl
    have hdate : ((p.line j).delivered p.olDeliveryD).olDeliveryD = p.olDeliveryD := rfl
    have hamount : ((p.line j).delivered p.olDeliveryD).olAmount = (p.line j).olAmount := rfl
    simp only [hcust, hdate, hamount, hne, ne_eq, not_false_eq_true, and_true]
  have hcnt : ∀ j < p.order.oOlCnt.toNat, (1 : ℤ) ≤ j + 1 ∧ (j : ℤ) + 1 ≤ Order.maxOlCnt := fun j hj => by
    have hi := (primary_orderLine_iff.mp (hk.keys (hp.line j hj).1)).2.2.2.1
    exact hi
  -- the numbers of the lines are those from one to their count
  have hsum : (p.apply w d k carrierId db).orderCredit w d c k =
      ∑ j ∈ Finset.range p.order.oOlCnt.toNat, (p.apply w d k carrierId db).lineCredit w d c k ((j : ℤ) + 1) := by
    rw [orderCredit]
    symm
    refine Finset.sum_of_injOn (fun j : ℕ => (j : ℤ) + 1) (fun i _ j _ hij => by simpa using hij) ?_ ?_ fun _ _ => rfl
    · intro j hj
      simpa using hcnt j (by simpa using hj)
    · intro i hi hout
      refine lineCredit_eq_zero fun line hl => ?_
      rw [hp.apply_line_of_ne hk fun j hj heq => hout ⟨j, by simpa using hj, ?_⟩] at hl
      · exact (h.deliveryD hl).mpr le_rfl
      · simpa using (congrArg (fun a => a.2.2.2) heq).symm
  rw [hsum, Finset.sum_congr rfl fun j hj => hin j (Finset.mem_range.mp hj), Shipment.total, Shipment.lines]
  split
  · have hfold : ∀ m : ℕ, ∑ j ∈ Finset.range m, (p.line j).olAmount =
        ((List.range m).map p.line).foldl (fun total l => total + l.olAmount) 0 := fun m => by
      induction m with
      | zero => rfl
      | succ m ih => rw [Finset.sum_range_succ, ih, List.range_succ, List.map_append, List.foldl_append]; rfl
    exact hfold _
  · exact Finset.sum_const_zero

/-! ### A step -/

/-- The customer of an order. -/
def owner (db : Db ℚ) (w d o : ℤ) : Option ℤ := (db.row .order (w, d, o)).map Order.oCId

/-- **The orders that there are** keep their customers, and those before the head are credited
as before. What is taken is credited. -/
theorem Queue.credit_step (h : db.Queue w d k n) {x : Txn ℚ} {r : Reply ℚ}
    (hs : DistrictStep w d x r db db') :
    (∀ o, 1 ≤ o → o < n → db'.owner w d o = db.owner w d o) ∧
      (∀ o, o < k → ∀ c, db'.orderCredit w d c o = db.orderCredit w d c o) := by
  cases hs with
  | quiet _ hsame =>
    refine ⟨fun o _ _ => by rw [owner, hsame.order, owner], fun o _ c => ?_⟩
    exact orderCredit_congr (by rw [hsame.order]) fun i => hsame.orderLine o i
  | @place c' items p _ _ _ hp hsame =>
    have hn := (h.place hp).1
    have horder : ∀ o, o ≠ n → db'.row .order (w, d, o) = db.row .order (w, d, o) := fun o ho => by
      rw [hsame.order, Placement.apply_order, if_neg]
      intro heq
      exact ho (by simpa [hn] using heq)
    refine ⟨fun o _ ho => by rw [owner, horder o (by omega), owner], fun o ho c => ?_⟩
    have hle := h.bounds.2
    refine orderCredit_congr (by rw [horder o (by omega)]) fun i => ?_
    rw [hsame.orderLine, hp.apply_line_of_ne]
    intro j _ heq
    have hon : o = n := by simpa [hn] using congrArg (fun a => a.2.2.1) heq
    omega
  | @ship carrierId now o' p db₁ _ _ hold hbefore hk₁ hp hafter =>
    obtain ⟨rfl, hlt⟩ := h.oldest_eq_some hold
    have howner : ∀ o, db'.owner w d o = db.owner w d o := fun o => by
      rw [owner, hafter.order, Shipment.apply_order]
      split
      · next heq =>
        have ho : o = o' := by simpa using heq
        rw [owner, ho, ← hbefore.order, hp.order]
        rfl
      · rw [owner, hbefore.order]
    refine ⟨fun o _ _ => howner o, fun o ho c => orderCredit_congr (howner o) fun i => ?_⟩
    rw [hafter.orderLine, hp.apply_line_of_ne hk₁, hbefore.orderLine]
    intro j _ heq
    have hon : o = o' := by simpa using congrArg (fun a => a.2.2.1) heq
    omega

/-- Where nothing is delivered, nothing is credited. -/
theorem Queue.delivered_of_quiet (h : db.Queue w d k n) (hk : db.Keyed) (hk' : db'.Keyed) {x : Txn ℚ} {r : Reply ℚ}
    (hs : DistrictStep w d x r db db') (htaken : x.taken w d r = []) :
    db'.deliveredAmount w d c = db.deliveredAmount w d c := by
  obtain ⟨k', n', hle, -, htaken', hq, -⟩ := h.step hs
  have hkk : k' = k := by
    by_contra hne
    have hmem : k ∈ idsFrom k k' := mem_idsFrom.mpr ⟨le_rfl, by omega⟩
    rw [← htaken', htaken] at hmem
    exact absurd hmem List.not_mem_nil
  subst hkk
  rw [hq.deliveredAmount_eq hk', h.deliveredAmount_eq hk]
  exact Finset.sum_congr rfl fun o ho => (h.credit_step hs).2 o (Finset.mem_Ico.mp ho).2 c

/-- **What is delivered is credited** to the customer of the order. -/
theorem Queue.delivered_of_ship (h : db.Queue w d k n) (hk : db.Keyed) (hk' : db'.Keyed) {carrierId : ℤ}
    {now : List Char} {p : Shipment ℚ} {db₁ : Db ℚ} {orders : List DeliveryOrderInfo}
    (hold : db.oldest w d = some k) (hbefore : SameOrders w d db db₁) (hk₁ : db₁.Keyed)
    (hp : p.Valid w d k now db₁) (hafter : SameOrders w d (p.apply w d k carrierId db₁) db')
    (htaken : (Txn.delivery (F := ℚ) w carrierId now).taken w d (.delivery orders) = [k]) :
    db'.deliveredAmount w d c = db.deliveredAmount w d c + if p.order.oCId = c then p.total else 0 := by
  have hs : DistrictStep w d (.delivery w carrierId now) (.delivery orders) db db' :=
    .ship rfl htaken hold hbefore hk₁ hp hafter
  have hship : (p.apply w d k carrierId db₁).Queue w d (k + 1) n :=
    (h.congr hbefore).ship hk₁ (h.oldest_eq_some hold).2 hp
  have hq := hship.congr hafter
  have hlast : db'.orderCredit w d c k = if p.order.oCId = c then p.total else 0 := by
    rw [orderCredit_congr (by rw [hafter.order]) fun i => hafter.orderLine k i]
    exact (h.congr hbefore).credit_ship hk₁ hp
  rw [hq.deliveredAmount_eq hk', h.deliveredAmount_eq hk, ← Finset.insert_Ico_right_eq_Ico_add_one h.bounds.1,
    Finset.sum_insert (by simp), hlast, add_comm]
  exact congrArg (· + _) (Finset.sum_congr rfl fun o ho => (h.credit_step hs).2 o (Finset.mem_Ico.mp ho).2 c)

/-! ### The books of a customer -/

/-- Nothing happens to a customer. -/
theorem Balanced.same {m : ℕ} {cust : Customer ℚ} (h : db.Balanced w d c m cust)
    (hrow : db'.row .customer (w, d, c) = db.row .customer (w, d, c)) (hhistory : db'.history = db.history)
    (hdelivered : db'.deliveredAmount w d c = db.deliveredAmount w d c) : db'.Balanced w d c m cust where
  row := hrow.trans h.row
  balance := by rw [hdelivered, hAmounts, hhistory]; exact h.balance
  ytdPayment := by rw [hdelivered]; exact h.ytdPayment
  paymentCnt := by rw [hhistory]; exact h.paymentCnt
  deliveryCnt := h.deliveryCnt

theorem hAmounts_snoc {h : History ℚ} (hhistory : db'.history = db.history ++ [h]) (p : History ℚ → Prop)
    [DecidablePred p] : db'.hAmounts p = db.hAmounts p + if p h then h.hAmount else 0 := by
  rw [hAmounts, hhistory, List.filter_append, List.map_append, List.sum_append, hAmounts]
  by_cases hp : p h
  · simp [hp]
  · simp [hp]

/-- **A payment** of the customer, or of another one. -/
theorem Balanced.pay {m : ℕ} {cust : Customer ℚ} (h : db.Balanced w d c m cust) {w' d' cW cD c' : ℤ} {hAmount : ℚ}
    {p : PaidHome ℚ} {payer : Customer ℚ} {cData : CString 500}
    (hpayer : db.row .customer (cW, cD, c') = some payer)
    (hdb : db' = (p.apply w' d' cW cD c' hAmount db).setRow .customer (cW, cD, c') (some (payer.paid hAmount cData)))
    (hdelivered : db'.deliveredAmount w d c = db.deliveredAmount w d c) : ∃ cust', db'.Balanced w d c m cust' := by
  have hhistory : db'.history = db.history ++ [.paid w' d' cW cD c' hAmount p.hDate p.ware p.dist] := by
    rw [hdb, setRow_history, PaidHome.apply_history]
  have hnames : Names w d c (.paid w' d' cW cD c' hAmount p.hDate p.ware p.dist) ↔ (cW, cD, c') = (w, d, c) := Iff.rfl
  have hrow : db'.row .customer (w, d, c) =
      if (w, d, c) = (cW, cD, c') then some (payer.paid hAmount cData) else db.row .customer (w, d, c) := by
    rw [hdb, setRow_row, PaidHome.apply_row_of_ne (by decide)]
  by_cases hid : (w, d, c) = (cW, cD, c')
  · obtain rfl : payer = cust := by
      rw [← hid, h.row] at hpayer
      exact (Option.some.inj hpayer).symm
    have hamount : (History.paid w' d' cW cD c' hAmount p.hDate p.ware p.dist).hAmount = hAmount := rfl
    have hbal : (payer.paid hAmount cData).cBalance = payer.cBalance - hAmount := rfl
    have hytd : (payer.paid hAmount cData).cYtdPayment = payer.cYtdPayment + hAmount := rfl
    have hcnt : (payer.paid hAmount cData).cPaymentCnt = payer.cPaymentCnt + 1 := rfl
    refine ⟨payer.paid hAmount cData, ⟨by rw [hrow, if_pos hid], ?_, ?_, ?_, h.deliveryCnt⟩⟩
    · rw [hAmounts_snoc hhistory, if_pos (hnames.mpr hid.symm), hdelivered, hbal, h.balance, hamount]
      ring
    · rw [hdelivered, ← h.ytdPayment, hbal, hytd]
      ring
    · rw [hhistory, List.countP_append, hcnt, h.paymentCnt,
        List.countP_singleton, if_pos (decide_eq_true (hnames.mpr hid.symm))]
      push_cast
      rfl
  · have hne : ¬Names w d c (.paid w' d' cW cD c' hAmount p.hDate p.ware p.dist) := fun hn => hid (hnames.mp hn).symm
    refine ⟨cust, ⟨by rw [hrow, if_neg hid, h.row], ?_, ?_, ?_, h.deliveryCnt⟩⟩
    · rw [hAmounts_snoc hhistory, if_neg hne, hdelivered, h.balance, add_zero]
    · rw [hdelivered, h.ytdPayment]
    · rw [hhistory, List.countP_append, h.paymentCnt, List.countP_singleton, if_neg (by simpa using hne), add_zero]

/-- **A delivery.** -/
theorem Balanced.deliver {m : ℕ} {cust : Customer ℚ} (h : db.Balanced w d c m cust) (hq : db.Queue w d k n)
    (hk : db.Keyed) {w' carrierId : ℤ} {now : List Char} {orders : List DeliveryOrderInfo}
    (hships : Ships w' carrierId now Tx.districtIds db orders db') (hd : d ∈ Tx.districtIds) :
    ∃ cust', db'.Balanced w d c (m + (((Txn.delivery (F := ℚ) w' carrierId now).taken w d (.delivery orders)).countP
      fun o => db'.owner w d o = some c)) cust' := by
  have hk' := hships.keyed hk
  -- nothing is taken here
  have hsame : (Txn.delivery (F := ℚ) w' carrierId now).taken w d (.delivery orders) = [] → SameDistrict w d db db' →
      ∃ cust', db'.Balanced w d c (m + (((Txn.delivery (F := ℚ) w' carrierId now).taken w d (.delivery orders)).countP
        fun o => db'.owner w d o = some c)) cust' := fun htaken hsame => by
    have hdelivered := hq.delivered_of_quiet (c := c) hk hk' (.quiet htaken hsame.toSameOrders) htaken
    rw [htaken]
    exact ⟨cust, h.same (hsame.customers c) hships.history hdelivered⟩
  by_cases hw : w' = w
  · subst hw
    rcases hships.at hk (by decide) hd with ⟨-, hnil, hsame'⟩ | ⟨o, p, db₁, hold, hone, hbefore, hk₁, hp, hafter⟩
    · exact hsame (by rw [Txn.taken, if_pos rfl, hnil]; rfl) hsame'
    · obtain ⟨rfl, hlt⟩ := hq.oldest_eq_some hold
      have htaken : (Txn.delivery (F := ℚ) w' carrierId now).taken w' d (.delivery orders) = [o] := by
        rw [Txn.taken, if_pos rfl, hone]
        rfl
      have hdelivered := hq.delivered_of_ship (c := c) hk hk' hold hbefore.toSameOrders hk₁ hp hafter.toSameOrders htaken
      have howner : db'.owner w' d o = some p.order.oCId := by
        rw [owner, hafter.order, Shipment.apply_order, if_pos rfl]
        rfl
      have hrow : db'.row .customer (w', d, c) = if c = p.order.oCId then some (p.cust.delivered p.total) else
          db.row .customer (w', d, c) := by
        rw [hafter.customers, Shipment.apply_customer, hbefore.customers]
        exact if_congr (by simp) rfl rfl
      rw [htaken, List.countP_singleton, howner]
      by_cases hc : p.order.oCId = c
      · have hcust : p.cust = cust := by
          have hc₁ := hp.customer
          rw [hbefore.customers, hc, h.row] at hc₁
          exact (Option.some.inj hc₁).symm
        rw [if_pos hc] at hdelivered
        rw [if_pos (by simp [hc])]
        rw [if_pos hc.symm, hcust] at hrow
        have hbal : (cust.delivered p.total).cBalance = cust.cBalance + p.total := rfl
        have hytd : (cust.delivered p.total).cYtdPayment = cust.cYtdPayment := rfl
        have hcnt : (cust.delivered p.total).cDeliveryCnt = cust.cDeliveryCnt + 1 := rfl
        refine ⟨_, ⟨hrow, ?_, ?_, ?_, ?_⟩⟩
        · rw [hdelivered, hAmounts, hships.history, hbal, h.balance, hAmounts]
          ring
        · rw [hdelivered, ← h.ytdPayment, hbal, hytd]
          ring
        · rw [hships.history]
          exact h.paymentCnt
        · rw [hcnt, h.deliveryCnt]
          push_cast
          rfl
      · rw [if_neg hc, add_zero] at hdelivered
        rw [if_neg (by simp [hc]), add_zero]
        exact ⟨cust, h.same (by rw [hrow, if_neg (Ne.symm hc)]) hships.history hdelivered⟩
  · exact hsame (by rw [Txn.taken, if_neg hw]) (hships.elsewhere hk fun heq => absurd heq hw)

/-- **The books of a customer after a step.** -/
theorem Balanced.step {m : ℕ} {cust : Customer ℚ} (h : db.Balanced w d c m cust) (hq : db.Queue w d k n)
    (hk : db.Keyed) {x : Txn ℚ} {r : Reply ℚ} (hx : x.Whole) (hs : Step x r db db') (hd : d ∈ Tx.districtIds) :
    ∃ cust', db'.Balanced w d c (m + ((x.taken w d r).countP fun o => db'.owner w d o = some c)) cust' := by
  have hk' := hs.keyed hk
  have hquiet : x.taken w d r = [] → db'.deliveredAmount w d c = db.deliveredAmount w d c := fun htaken =>
    hq.delivered_of_quiet hk hk' (hs.at hk w hd) htaken
  cases hs with
  | refuse hplaces =>
    rw [Txn.Places.taken hplaces]
    exact ⟨cust, h⟩
  | place hplaces =>
    have htaken := Txn.Places.taken (w := w) (d := d) hplaces r
    rw [htaken]
    refine ⟨cust, h.same ?_ ?_ (hquiet htaken)⟩
    · rw [takeStock_row_of_ne (by decide), Placement.apply_row_of_ne (by decide)]
    · rw [takeStock_history, Placement.apply_history]
  | take => exact ⟨cust, h.same (by rw [takeStock_row_of_ne (by decide)]) (takeStock_history _) (hquiet rfl)⟩
  | pay hpays _ hpayer =>
    have htaken : x.taken w d r = [] := by cases hpays <;> rfl
    rw [htaken]
    exact h.pay hpayer rfl (hquiet htaken)
  | payHome => exact hx.elim
  | payRemote hpays => cases hpays <;> exact hx.elim
  | deliver hships => exact h.deliver hq hk hships hd

/-! ### The books of a warehouse -/

/-- What a district has taken in. -/
def dYtds (db : Db ℚ) (w : ℤ) : ℚ := (Tx.districtIds.map (db.dYtd w)).sum

/-- **The books of a warehouse and of a district**: their differences. -/
structure SameGaps (db db' : Db ℚ) : Prop where
  districts (w : ℤ) : db'.wYtd w - db'.dYtds w = db.wYtd w - db.dYtds w
  warehouse (w : ℤ) : db'.wYtd w - db'.hAmounts (fun h => h.hWId = w) = db.wYtd w - db.hAmounts fun h => h.hWId = w
  district (w d : ℤ) : db'.dYtd w d - db'.hAmounts (fun h => h.hWId = w ∧ h.hDId = d) =
    db.dYtd w d - db.hAmounts fun h => h.hWId = w ∧ h.hDId = d

theorem SameGaps.refl (db : Db ℚ) : SameGaps db db := ⟨fun _ => rfl, fun _ => rfl, fun _ _ => rfl⟩

theorem SameGaps.trans {db'' : Db ℚ} (h : SameGaps db db') (h' : SameGaps db' db'') : SameGaps db db'' where
  districts w := (h'.districts w).trans (h.districts w)
  warehouse w := (h'.warehouse w).trans (h.warehouse w)
  district w d := (h'.district w d).trans (h.district w d)

/-- Nothing is paid. -/
theorem SameGaps.of_same (hw : ∀ w, db'.wYtd w = db.wYtd w) (hd : ∀ w d, db'.dYtd w d = db.dYtd w d)
    (hhistory : db'.history = db.history) : SameGaps db db' where
  districts w := by
    rw [hw, dYtds, dYtds, show db'.dYtd w = db.dYtd w from funext (hd w)]
  warehouse w := by rw [hw, hAmounts, hAmounts, hhistory]
  district w d := by rw [hd, hAmounts, hAmounts, hhistory]

/-- **A payment** is taken in by the warehouse and the district. -/
theorem SameGaps.paid (hk : db.Keyed) {w d cW cD c : ℤ} {hAmount : ℚ} {now : List Char} {p : PaidHome ℚ}
    (hp : p.Valid w d now db) : SameGaps db (p.apply w d cW cD c hAmount db) := by
  have hhistory : (p.apply w d cW cD c hAmount db).history =
      db.history ++ [.paid w d cW cD c hAmount p.hDate p.ware p.dist] := PaidHome.apply_history
  have hw : ∀ w', (p.apply w d cW cD c hAmount db).wYtd w' = db.wYtd w' + if w' = w then hAmount else 0 := fun w' => by
    rw [wYtd, PaidHome.apply_warehouse, wYtd]
    split
    · next heq => rw [heq, hp.warehouse]; rfl
    · rw [add_zero]
  have hd : ∀ w' d', (p.apply w d cW cD c hAmount db).dYtd w' d' =
      db.dYtd w' d' + if (w', d') = (w, d) then hAmount else 0 := fun w' d' => by
    rw [dYtd, PaidHome.apply_district, dYtd]
    split
    · next heq => rw [heq, hp.district]; rfl
    · rw [add_zero]
  have hmem : d ∈ Tx.districtIds := mem_districtIds (primary_district_iff.mp (hk.keys hp.district)).2
  have hds : ∀ w', (p.apply w d cW cD c hAmount db).dYtds w' = db.dYtds w' + if w' = w then hAmount else 0 := fun w' => by
    rw [dYtds, dYtds, List.map_congr_left fun d' _ => hd w' d', List.sum_map_add]
    congr 1
    by_cases hww : w' = w
    · have hone : ∀ d', (if (w', d') = (w, d) then hAmount else 0) = if d' = d then hAmount else 0 := fun d' => by
        simp only [Prod.mk.injEq, hww, true_and]
      rw [if_pos hww, List.map_congr_left fun d' _ => hone d', List.sum_map_ite_eq,
        List.count_eq_one_of_mem (by decide) hmem, one_smul, sub_zero, List.sum_map_zero, add_zero]
    · rw [if_neg hww]
      refine List.sum_eq_zero fun y hy => ?_
      obtain ⟨b, hb, rfl⟩ := List.mem_map.mp hy
      exact if_neg fun heq => hww (Prod.mk.inj heq).1
  have hamount : (History.paid w d cW cD c hAmount p.hDate p.ware p.dist).hAmount = hAmount := rfl
  have hat : ∀ w' d', ((History.paid w d cW cD c hAmount p.hDate p.ware p.dist).hWId = w' ∧
      (History.paid w d cW cD c hAmount p.hDate p.ware p.dist).hDId = d') ↔ (w', d') = (w, d) := fun w' d' => by
    rw [Prod.mk.injEq, eq_comm (a := w'), eq_comm (a := d')]
    exact Iff.rfl
  have hatw : ∀ w', (History.paid w d cW cD c hAmount p.hDate p.ware p.dist).hWId = w' ↔ w' = w := fun w' => eq_comm
  refine ⟨fun w' => ?_, fun w' => ?_, fun w' d' => ?_⟩
  · rw [hw, hds]
    ring
  · rw [hw, hAmounts_snoc hhistory, hamount]
    simp only [hatw]
    ring
  · rw [hd, hAmounts_snoc hhistory, hamount]
    simp only [hat]
    ring

/-- **The books of the warehouses after a step.** -/
theorem SameGaps.step (hk : db.Keyed) {x : Txn ℚ} {r : Reply ℚ} (hx : x.Whole) (hs : Step x r db db') :
    SameGaps db db' := by
  have hother : ∀ {db db' : Db ℚ}, db'.row .warehouse = db.row .warehouse → db'.row .district = db.row .district →
      db'.history = db.history → SameGaps db db' := fun hw hd hh =>
    SameGaps.of_same (fun w => by rw [wYtd, hw, wYtd]) (fun w d => by rw [dYtd, hd, dYtd]) hh
  have htake : ∀ (db : Db ℚ) ls, SameGaps db (db.takeStock ls) := fun db ls =>
    hother (takeStock_row_of_ne (by decide) ls) (takeStock_row_of_ne (by decide) ls) rfl
  cases hs with
  | refuse => exact SameGaps.refl _
  | @place _ _ w' d' _ _ _ ls p _ _ hp =>
    refine SameGaps.trans (SameGaps.of_same (fun w => ?_) (fun w d => ?_) Placement.apply_history) (htake _ ls)
    · rw [wYtd, Placement.apply_row_of_ne (by decide), wYtd]
    · rw [dYtd, Placement.apply_district, dYtd]
      split
      · next heq => rw [heq, hp.district]; rfl
      · rfl
  | take => exact htake _ _
  | pay _ hp _ =>
    refine (SameGaps.paid hk hp).trans (hother ?_ ?_ (setRow_history _))
    · exact setRow_row_of_ne _ (by decide)
    · exact setRow_row_of_ne _ (by decide)
  | payHome => exact hx.elim
  | payRemote hpays => cases hpays <;> exact hx.elim
  | deliver hships => exact hother (hships.row_of_ne (by decide)) (hships.row_of_ne (by decide)) hships.history

end Db

end TpccBench
