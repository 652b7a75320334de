import TpccBench.Client.Serves
import TpccBench.Db.Posting
import TpccBench.Db.StockLevels

/-!
# What a client is answered

Each of the five calls ends on tables that serve the client, and leaves tables that do: a stock level and
an order status write nothing, and the others are transactions whose rows are there. An order is refused
exactly if it is marked for a rollback (`TpccBench.TPCCClient.Serves.send`).
-/

namespace TpccBench

open Prog

variable {F : Type}

/-- What `doNewOrder` returns for a request: whether the order is not marked for a rollback. -/
def Request.answer : Request F → Option Bool
  | .newOrder _ _ _ _ rollback _ => some !rollback
  | _ => none

/-- **The id of the order fits**, if one is placed. -/
def Request.IdFits (t : Tables F) : Request F → Prop
  | .newOrder w d _ _ rollback _ => rollback = false → ∀ n, t.db.NextOId w d n → n ≤ 143164
  | _ => True

/-- **Order status** of a customer who is chosen is one by the id. -/
theorem CustomerChoice.Chooses.orderStatus_eq {t : Tables F} (ht : t.Sound) {who : CustomerChoice} {w d c : ℤ}
    (hwho : who.Chooses w d t c) : who.orderStatus w d t = Op.orderStatus w d c t := by
  cases who with
  | id cId =>
    obtain rfl : c = cId := hwho
    rfl
  | lastName cLast =>
    obtain ⟨p, cust, hfind, hcell, rfl⟩ := hwho
    rw [CustomerChoice.orderStatus, Op.orderStatusByName, bind_apply, hfind, Op.orderStatus, bind_apply,
      Op.findCustomer_of_named ht hfind hcell]

namespace TPCCClient

variable {client : TPCCClient} {t t' : Tables F} {w d c : ℤ}

/-! ### Stock levels -/

/-- The lines of a district are numbered, and their items are in stock. -/
theorem Serves.lines (h : client.Serves t) (hw : w ∈ idsTo client.numWarehouses)
    (hd : d ∈ idsTo client.districtsPerWarehouse) :
    (t.db.Numbered w d fun o => ((t.db.row .order (w, d, o)).elim 0 Order.oOlCnt).toNat) ∧ t.db.InStock w d := by
  have hdist := h.district hw hd
  obtain ⟨k, n, hp, -, -⟩ := hdist.pipeline
  constructor
  · intro o i
    rw [Db.HasLine]
    dsimp only
    cases hrow : t.db.row .order (w, d, o) with
    | none =>
      refine iff_of_false ?_ ?_
      · intro hline
        exact Option.not_isSome_iff_eq_none.mpr hrow (hp.lineOrder hline)
      · intro hle
        rw [Option.elim_none, Int.toNat_zero] at hle
        omega
    | some order =>
      rw [hp.line hrow, Option.elim_some]
      omega
  · intro o i line hline
    have hsome := Option.isSome_of_eq_some hline
    obtain ⟨order, hrow⟩ := Option.isSome_iff_exists.mp (hp.lineOrder hsome)
    have hrange := (hp.line hrow i).mp hsome
    refine h.stock hw (hdist.item (o := o) (Option.map_eq_some_iff.mpr ⟨order, hrow, rfl⟩) line.given ?_)
    refine List.mem_map.mpr ⟨(i - 1).toNat, List.mem_range.mpr (by omega), ?_⟩
    rw [show ((i - 1).toNat : ℤ) + 1 = i by omega, hline]
    rfl

theorem Serves.stockLevel (h : client.Serves t) (hw : w ∈ idsTo client.numWarehouses)
    (hd : d ∈ idsTo client.districtsPerWarehouse) (threshold : ℤ) :
    ∃ result, 0 ≤ result ∧ Op.stockLevel w d threshold t = some (result, t) := by
  obtain ⟨k, n, hp, hlow, hhigh⟩ := (h.district hw hd).pipeline
  obtain ⟨dist, hdist, rfl⟩ := Option.map_eq_some_iff.mp hp.nextOId
  obtain ⟨hlines, hstock⟩ := h.lines hw hd
  have hcounts := Tables.countsLow_of_fits h.sound hdist hlow hlines hstock (orderLineKeyFits_of_le (by omega) _ _ _)
  obtain ⟨items, -, hrun⟩ := hcounts.counts threshold
  exact ⟨_, Int.natCast_nonneg _, hrun⟩

variable [Money F]

/-- **The last order of a customer** is reported. -/
theorem ServesDistrict.orderStatus (h : client.ServesDistrict t.db w d) (ht : t.Sound)
    (hcust : (t.db.row .customer (w, d, c)).isSome) : ∃ out, Op.orderStatus w d c t = some (out, t) := by
  obtain ⟨k, n, hp, -, hhigh⟩ := h.pipeline
  obtain ⟨o, order, hbook, hcid, hlt, hlast⟩ := hp.toQueue.exists_last (h.owns hcust)
  obtain ⟨out, hrun, -⟩ := ht.orderStatus_spec hp hcust hbook hcid (h.count hbook) hlast (by omega)
  exact ⟨out, hrun⟩

/-! ### Transactions -/

theorem validWarehouse_of_mem (hw : w ∈ idsTo client.numWarehouses) : validWarehouse w := by
  obtain ⟨h₁, h₂⟩ := mem_idsTo.mp hw
  have hle := client.warehouses_range.2
  exact ⟨h₁, by rw [Warehouse.maxWarehouseId]; omega⟩

/-- **A transaction that ends**, and places no order. -/
theorem Serves.commit_tx (h : client.Serves t) {x : Txn F} {α : Type} {y : Tx F α} {f : α → Reply F}
    (hx : x.reply = y >>= fun a => pure (f a)) (hc : x.Carries) (hhome : x.home = none)
    (hsome : (x.reply.commit none t).isSome) : ∃ a t', y.commit none t = some (a, t') ∧ client.GoesOn t t' := by
  obtain ⟨⟨r, t'⟩, hrun⟩ := Option.isSome_iff_exists.mp hsome
  have hgoes := h.commit hc (fun w d hplaces => absurd (hhome.symm.trans hplaces) (Option.some_ne_none _).symm) hrun
  rw [hx, Tx.commit_map] at hrun
  obtain ⟨⟨a, t₁⟩, hcommit, heq⟩ := Option.map_eq_some_iff.mp hrun
  obtain ⟨-, rfl⟩ := Prod.mk.inj heq
  exact ⟨a, t₁, hcommit, hgoes⟩

theorem Serves.delivery (h : client.Serves t) (hw : w ∈ idsTo client.numWarehouses) {carrierId : ℤ}
    (hc : 1 ≤ carrierId) (now : Timestamp) :
    ∃ orders t', (Tx.delivery w carrierId now.val).commit none t = some (orders, t') ∧ client.GoesOn t t' := by
  obtain ⟨orders, t', hrun, -⟩ :=
    commit_delivery h.sound (validWarehouse_of_mem hw) (fun d hd => h.orderly w hd) hc now.2 none
  exact h.commit_tx (x := .delivery w carrierId now.val) rfl hc rfl (Option.isSome_of_eq_some hrun)

omit [Money F] in
/-- The customer who is chosen is there. -/
theorem Serves.chosen (h : client.Serves t) (hw : w ∈ idsTo client.numWarehouses)
    (hd : d ∈ idsTo client.districtsPerWarehouse) {who : CustomerChoice} (hwho : client.Names who) :
    ∃ c, who.Chooses w d t c ∧ (t.db.row .customer (w, d, c)).isSome := by
  obtain ⟨c, hchooses⟩ := h.chooses hw hd hwho
  refine ⟨c, hchooses, ?_⟩
  cases hwho with
  | id hc =>
    obtain rfl := hchooses
    exact (h.district hw hd).customer hc
  | lastName => exact hchooses.isSome_row h.sound

theorem Serves.payment (h : client.Serves t) {cW cD : ℤ} (hw : w ∈ idsTo client.numWarehouses)
    (hd : d ∈ idsTo client.districtsPerWarehouse) (hcW : cW ∈ idsTo client.numWarehouses)
    (hcD : cD ∈ idsTo client.districtsPerWarehouse) {who : CustomerChoice} (hwho : client.Names who) (hAmount : F)
    (now : Timestamp) :
    ∃ out t', (who.payment w d cW cD hAmount now.val).commit none t = some (out, t') ∧ client.GoesOn t t' := by
  obtain ⟨c, hchooses, hcust⟩ := h.chosen hcW hcD hwho
  obtain ⟨k, n, hp, -⟩ := (h.district hw hd).pipeline
  obtain ⟨dist, hdist, -⟩ := Option.map_eq_some_iff.mp hp.nextOId
  -- as a payment by id
  rw [hchooses.payment_commit h.sound]
  have hpayable : (Txn.payment w d cW cD c hAmount now.val).Payable t :=
    .payment (h.warehouse hw) (Option.isSome_of_eq_some hdist) now.2.le hcust
  have hpay := hpayable.isSome h.sound false
  exact h.commit_tx (x := .payment w d cW cD c hAmount now.val) rfl trivial rfl (Option.isSome_map.trans hpay)

/-! ### New orders -/

omit [Money F] in
/-- **The items of an order are there** exactly if it is not marked for a rollback. -/
theorem Serves.hasItems_iff (h : client.Serves t) (hnum : client.numItems = Item.numItems)
    {items : List NewOrderItem} {rollback : Bool} (hitems : client.AsksFor items rollback) :
    (∀ item ∈ items, t.HasItem item.iId) ↔ rollback = false := by
  have hhas : ∀ item ∈ items, t.HasItem item.iId ↔ item.iId ≤ client.numItems := by
    intro item hitem
    rw [Tables.hasItem_iff (hitems.one_le item hitem), h.items]
  cases rollback with
  | false =>
    refine iff_of_true ?_ rfl
    intro item hitem
    rw [hhas item hitem]
    rcases hitems.item item hitem with hin | ⟨hfalse, -⟩
    · exact (mem_idsTo.mp hin).2
    · exact absurd hfalse (by decide)
  | true =>
    refine iff_of_false ?_ (by decide)
    intro hall
    obtain ⟨item, hitem, hlast⟩ := hitems.rollback rfl
    have hle := (hhas item hitem).mp (hall item hitem)
    rw [hlast, hnum] at hle
    omega

/-- **An order is placed** exactly if it is not marked for a rollback. -/
theorem Serves.newOrder (h : client.Serves t) (hnum : client.numItems = Item.numItems)
    (hw : w ∈ idsTo client.numWarehouses) (hd : d ∈ idsTo client.districtsPerWarehouse)
    (hc : c ∈ idsTo client.customersPerDistrict) {items : List NewOrderItem} {rollback : Bool}
    (hitems : client.AsksFor items rollback) (now : Timestamp)
    (hfit : rollback = false → ∀ n, t.db.NextOId w d n → n ≤ 143164) (o : HashOrder) :
    ∃ out t', (Tx.newOrder o w d c items now.val .new).commit none t = some ((!rollback, out), t') ∧
      client.GoesOn t t' := by
  obtain ⟨k, n, hp, -, hhigh⟩ := (h.district hw hd).pipeline
  have hcust := (h.district hw hd).customer hc
  obtain ⟨dist, horderable⟩ := h.sound.orderable hp.toQueue hhigh hcust
  have hids := hitems.one_le
  have hall := h.hasItems_iff hnum hitems
  have hplaceable : (∀ item ∈ items, t.HasItem item.iId) → t.db.Placeable w d c items now.val := by
    intro hthere
    have hfalse := hall.mp hthere
    refine hp.toQueue.placeable h.sound.keyed (hfit hfalse n hp.nextOId) (h.warehouse hw) hcust hitems.length.2
      (fun item hitem => ⟨hids item hitem, hthere item hitem⟩) ?_ now.2
    intro item hitem
    rcases hitems.item item hitem with hin | ⟨htrue, -⟩
    · exact h.stock (hitems.supply item hitem) hin
    · exact absurd (hfalse.symm.trans htrue) (by decide)
  obtain ⟨result, out, t', hrun, hresult⟩ := horderable.commit_newOrder hids hplaceable o
  obtain rfl : result = !rollback := by
    rw [hall] at hresult
    cases rollback <;> simpa using hresult
  refine ⟨out, t', hrun, ?_⟩
  have hreply : (Txn.newOrder o w d c items now.val .new).reply.commit none t =
      some (.newOrder (!rollback) out, t') := by
    rw [Txn.reply, Tx.commit_map, hrun]
    rfl
  refine h.commit (x := .newOrder o w d c items now.val .new) trivial ?_ hreply
  intro w' d' hhome hcommitted
  obtain ⟨rfl, rfl⟩ := Prod.mk.inj (Option.some.inj hhome)
  exact hfit (by simpa [Reply.committed] using hcommitted)

/-- **Every request is answered**, and what it is answered depends on its mark only. -/
theorem Serves.send (h : client.Serves t) (hnum : client.numItems = Item.numItems) {r : Request F}
    (hr : client.Asks r) (hfit : r.IdFits t) (o : HashOrder) :
    ∃ t', r.send o t = some (r.answer, t') ∧ client.GoesOn t t' := by
  cases hr with
  | @stockLevel w d threshold hw hd =>
    obtain ⟨result, hresult, hrun⟩ := h.stockLevel hw hd threshold
    have hassert : assert (result ≥ 0) t = some ((), t) := if_pos hresult
    refine ⟨t, ?_, .refl h⟩
    rw [Request.send, bind_apply, hrun, Option.bind_some, bind_apply, hassert]
    rfl
  | orderStatus hw hd hwho =>
    obtain ⟨c, hchooses, hcust⟩ := h.chosen hw hd hwho
    obtain ⟨out, hrun⟩ := (h.district hw hd).orderStatus h.sound hcust
    refine ⟨t, ?_, .refl h⟩
    rw [Request.send, bind_apply, hchooses.orderStatus_eq h.sound, hrun]
    rfl
  | @delivery w carrierId now hw hc =>
    obtain ⟨orders, t', hrun, hgoes⟩ := h.delivery hw hc now
    refine ⟨t', ?_, hgoes⟩
    rw [Request.send, bind_apply, hrun]
    rfl
  | @payment w d cW cD who hAmount now hw hd hcW hcD hwho =>
    obtain ⟨out, t', hrun, hgoes⟩ := h.payment hw hd hcW hcD hwho hAmount now
    refine ⟨t', ?_, hgoes⟩
    rw [Request.send, bind_apply, hrun]
    rfl
  | @newOrder w d c items rollback now hw hd hc hitems =>
    obtain ⟨out, t', hrun, hgoes⟩ := h.newOrder hnum hw hd hc hitems now hfit o
    have hassert : assert ((!rollback) = !rollback) t' = some ((), t') := if_pos rfl
    refine ⟨t', ?_, hgoes⟩
    rw [Request.send, bind_apply, hrun, Option.bind_some]
    dsimp only
    rw [bind_apply, hassert]
    rfl

end TPCCClient

end TpccBench
