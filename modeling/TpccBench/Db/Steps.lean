import TpccBench.Db.Delivery
import TpccBench.Db.Payment

/-!
# What a committed transaction does

One description for each transaction that writes (`TpccBench.Db.Step`): the rows that it has found,
and the database it has left. What holds in every state of a run is proved from these.
-/

namespace TpccBench

open Prog

variable {F : Type} [Money F]

/-- A payment of a customer, by id or by name. -/
inductive Txn.Pays (w d cW cD c : ℤ) (hAmount : F) (now : List Char) : Txn F → Prop
  | payment : Pays w d cW cD c hAmount now (.payment w d cW cD c hAmount now)
  | paymentByName (cLast) : Pays w d cW cD c hAmount now (.paymentByName w d cW cD cLast hAmount now)

/-- The part of a payment at the warehouse of the customer. -/
inductive Txn.PaysRemote (cW cD c : ℤ) (hAmount : F) : Txn F → Prop
  | paymentRemote (w d output) : PaysRemote cW cD c hAmount (.paymentRemote w d cW cD c hAmount output)
  | paymentRemoteByName (w d cLast output) :
    PaysRemote cW cD c hAmount (.paymentRemoteByName w d cW cD cLast hAmount output)

/-- **A step**: a transaction with what it replies, and the databases before and after. -/
inductive Db.Step : Txn F → Reply F → Db F → Db F → Prop
  | refuse {x r w d c items db} : x.Places w d c items → r.committed = false → Step x r db db
  | place {x r w d c items db ls} {p : Placement F w d c items} : x.Places w d c items → r.committed = true →
    p.Valid db → Step x r db ((p.apply db).takeStock ls)
  | take {home remote items r db ls} : Step (.newOrderRemote home remote items) r db (db.takeStock ls)
  | pay {x r w d cW cD c hAmount now db cust cData} {p : PaidHome F} : x.Pays w d cW cD c hAmount now →
    p.Valid w d now db → db.row .customer (cW, cD, c) = some cust →
    Step x r db ((p.apply w d cW cD c hAmount db).setRow .customer (cW, cD, c) (some (cust.paid hAmount cData)))
  | payHome {r w d cW cD c hAmount now db} {p : PaidHome F} : p.Valid w d now db →
    Step (.paymentHome w d cW cD c hAmount now) r db (p.apply w d cW cD c hAmount db)
  | payRemote {x r cW cD c hAmount db cust cData} : x.PaysRemote cW cD c hAmount →
    db.row .customer (cW, cD, c) = some cust →
    Step x r db (db.setRow .customer (cW, cD, c) (some (cust.paid hAmount cData)))
  | deliver {w carrierId now orders db db'} : Db.Ships w carrierId now Tx.districtIds db orders db' →
    Step (.delivery w carrierId now) (.delivery orders) db db'

namespace Db

variable {db db' : Db F} {x : Txn F} {y : Dx F (Reply F)} {r : Reply F}

theorem step_of_places {w d c : ℤ} {items : List NewOrderItem} (hx : x.Places w d c items) (h : x.OnDb y)
    (hk : db.Keyed) (hrun : y db = some (r, db')) : Step x r db db' := by
  rcases hx.onDb h hk hrun with ⟨hr, rfl⟩ | ⟨hr, p, ls, hp, rfl⟩
  · exact Step.refuse hx hr
  · exact Step.place hx hr hp

/-- **Every transaction is one of these steps.** -/
theorem step_of_onDb (h : x.OnDb y) (hk : db.Keyed) (hrun : y db = some (r, db')) : Step x r db db' := by
  cases h with
  | newOrder o w d c items now output => exact step_of_places (.newOrder ..) (.newOrder ..) hk hrun
  | newOrderHome w d c items now output => exact step_of_places (.newOrderHome ..) (.newOrderHome ..) hk hrun
  | newOrderRemote home remote items =>
    obtain ⟨qs, db₁, hy, hret⟩ := bind_eq_some hrun
    obtain ⟨rfl, rfl⟩ := Prod.mk.inj (Option.some.inj hret)
    rcases newOrderRemote_eq_some hk hy with ⟨-, rfl⟩ | ⟨q, -, rfl⟩
    · have htake : Step (.newOrderRemote home remote items) (.quantities qs) db₁ (db₁.takeStock []) := Step.take
      simpa using htake
    · exact Step.take
  | payment w d cW cD c hAmount now | paymentByName w d cW cD c cLast hAmount now =>
    obtain ⟨out, db₁, hy, hret⟩ := bind_eq_some hrun
    obtain ⟨rfl, rfl⟩ := Prod.mk.inj (Option.some.inj hret)
    obtain ⟨p, cust, cData, hp, hcust, -, heq⟩ := (payment_iff hk).mp hy
    obtain rfl := (Prod.mk.inj heq).2
    exact Step.pay (by constructor) hp hcust
  | paymentHome w d cW cD c hAmount now =>
    obtain ⟨out, db₁, hy, hret⟩ := bind_eq_some hrun
    obtain ⟨rfl, rfl⟩ := Prod.mk.inj (Option.some.inj hret)
    obtain ⟨p, hp, heq⟩ := (paymentHome_iff hk).mp hy
    obtain rfl := (Prod.mk.inj heq).2
    exact Step.payHome hp
  | paymentRemote w d cW cD c hAmount output | paymentRemoteByName w d cW cD c cLast hAmount output =>
    obtain ⟨out, db₁, hy, hret⟩ := bind_eq_some hrun
    obtain ⟨rfl, rfl⟩ := Prod.mk.inj (Option.some.inj hret)
    obtain ⟨cust, cData, hcust, -, heq⟩ := (paymentRemote_iff hk).mp hy
    obtain rfl := (Prod.mk.inj heq).2
    exact Step.payRemote (by constructor) hcust
  | delivery w carrierId now =>
    obtain ⟨orders, db₁, hy, hret⟩ := bind_eq_some hrun
    obtain ⟨rfl, rfl⟩ := Prod.mk.inj (Option.some.inj hret)
    exact Step.deliver ((delivery_iff hk).mp hy).2

theorem Step.keyed (h : Step x r db db') (hk : db.Keyed) : db'.Keyed := by
  cases h with
  | refuse => exact hk
  | place _ _ hp => exact (hp.keyed hk).takeStock _
  | take => exact hk.takeStock _
  | @pay _ _ _ _ _ _ _ _ _ _ cust cData p _ hp hcust =>
    exact (hp.keyed hk).write ((PaidHome.apply_customer _).trans hcust) (hk.ids hcust :)
  | payHome hp => exact hp.keyed hk
  | payRemote _ hcust => exact hk.write hcust (hk.ids hcust :)
  | deliver hships => exact hships.keyed hk

end Db

/-- **A committed transaction is a step.** -/
theorem Txn.commit_step {t t' : Tables F} (ht : t.Sound) {x : Txn F} {free : Option HashOrder} {r : Reply F}
    (h : x.reply.commit free t = some (r, t')) : t'.Sound ∧ Db.Step x r t.db t'.db := by
  obtain ⟨hs, y, hon, hy⟩ := Txn.commit_onDb ht h
  exact ⟨hs, Db.step_of_onDb hon ht.keyed hy⟩

end TpccBench
