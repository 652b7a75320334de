import TpccBench.Client.Session
import TpccBench.Db.OneWarehouse
import TpccBench.Db.Partition
import TpccBench.Db.Stays
import TpccBench.Load.Ends

/-!
# A client of a database that is split over instances

What a client asks for is answered at the instances of the warehouses: a new order and a payment by id in parts,
a delivery and what only reads at one instance. The answers are those of one instance
(`TpccBench.deployed_answers`). For a lookup by last name that takes more than the rows: the two indexes over
the customers agree at every instance, and go on to agree.

A payment by last name is answered where its customer is at the instance of its warehouse. The part at home
records the id of the customer, and no part reports it.
-/

namespace TpccBench

open Prog

variable {F : Type}

/-! ### Requests and answers -/

/-- What the database answers. -/
inductive Answer (F : Type)
  | stockLevel (result : ℤ)
  | orderStatus (output : OrderStatusOutput F)
  | reply (reply : Reply F)

namespace Request

variable [Money F]

/-- **The call of the database**, with all that it answers. -/
def ask (h : HashOrder) : Request F → Op F (Answer F)
  | stockLevel w d threshold => do return .stockLevel (← Op.stockLevel w d threshold)
  | orderStatus w d customer => do return .orderStatus (← customer.orderStatus w d)
  | delivery w carrier now => do return .reply (.delivery (← (Tx.delivery w carrier now.val).commit none))
  | payment w d cW cD customer hAmount now => do
    return .reply (.payment (← (customer.payment w d cW cD hAmount now.val).commit none))
  | newOrder w d c items _ now => do
    let r ← (Tx.newOrder h w d c items now.val .new).commit none
    return .reply (.newOrder r.1 r.2)

/-- What the client asserts of an answer, and what it returns. -/
def accept : Request F → Answer F → Option (Option Bool)
  | stockLevel .., .stockLevel result => if result ≥ 0 then some none else none
  | newOrder _ _ _ _ rollback _, .reply (.newOrder result _) => if result = !rollback then some (some result) else none
  | _, _ => some none

/-- **Sending** is asking, and accepting the answer. -/
theorem send_eq (h : HashOrder) (r : Request F) : r.send h = r.ask h >>= fun a => (liftM (r.accept a) : Op F _) := by
  cases r with
  | stockLevel w d threshold =>
    rw [send, ask, bind_assoc]
    refine congrArg _ (funext fun result => ?_)
    rw [pure_bind, accept]
    funext t
    rw [bind_apply, assert]
    split <;> rfl
  | orderStatus w d customer => simp only [send, ask, bind_assoc, pure_bind, accept]; rfl
  | delivery w carrier now => simp only [send, ask, bind_assoc, pure_bind, accept]; rfl
  | payment w d cW cD customer hAmount now => simp only [send, ask, bind_assoc, pure_bind, accept]; rfl
  | newOrder w d c items rollback now =>
    rw [send, ask, bind_assoc]
    refine congrArg _ (funext fun r => ?_)
    obtain ⟨result, output⟩ := r
    rw [pure_bind, accept]
    funext t
    change (assert (result = !rollback) >>= fun _ => pure (some result) : Op F _) t = _
    rw [bind_apply, assert]
    split <;> rfl

variable {ι : Type} [DecidableEq ι]

/-- **The request at the instances** of its warehouses. -/
def atSites (site : ℤ → ι) (how : Conduct F) : Request F → Prog (ι → Tables F) (Answer F)
  | stockLevel w d threshold => do return .stockLevel (← onSite (site w) (Op.stockLevel w d threshold))
  | orderStatus w d customer => do return .orderStatus (← onSite (site w) (customer.orderStatus w d))
  | delivery w carrier now => do return .reply (← (Job.delivery w carrier now.val).atSites site how)
  | payment w d cW cD (.id c) hAmount now => do
    return .reply (← (Job.payment w d cW cD c hAmount now.val).atSites site how)
  | payment w d cW cD (.lastName cLast) hAmount now => do
    return .reply (.payment (← onSite (site w) ((Tx.paymentByName w d cW cD cLast hAmount now.val).commit (how.free w))))
  | newOrder w d c items _ now => do return .reply (← (Job.newOrder w d c items now.val).atSites site how)

/-- **The request can be answered at the instances**: the customer of a payment by last name is where the
payment is. -/
def Routable (site : ℤ → ι) : Request F → Prop
  | payment w _ cW _ (.lastName _) _ _ => site cW = site w
  | _ => True

end Request

/-! ### What the instances keep -/

/-- A database on several instances, and one that has all of it, with both indexes over the customers. -/
structure Indexed {ι : Type} (site : ℤ → ι) (c : ι → Tables F) (t : Tables F) : Prop extends Deployed site c t where
  named : t.Named
  instancesNamed (i : ι) : (c i).Named

/-- Tables whose indexes over the customers agree. -/
def Tables.Kept (t : Tables F) : Prop := t.Sound ∧ t.Named

section Kept

variable {ι : Type} {site : ℤ → ι} {α : Type}

/-- A simulation of what keeps the indexes. -/
theorem Indexed.sim {x : Prog (ι → Tables F) α} {y : Op F α}
    (h : Sim (Deployed site) x y fun a b c t => a = b ∧ Deployed site c t)
    (hx : Triple (fun c => ∀ i, (c i).Kept) x fun _ c => ∀ i, (c i).Kept) (hy : Triple Tables.Kept y fun _ => Tables.Kept) :
    Sim (Indexed site) x y fun a b c t => a = b ∧ Indexed site c t := by
  refine (h.and_triple hx hy).conseq ?_ ?_
  · exact fun c t hc => ⟨hc.toDeployed, fun i => ⟨hc.instances i, hc.instancesNamed i⟩, hc.sound, hc.named⟩
  · rintro a b c t ⟨⟨hab, hc⟩, hi, ht⟩
    exact ⟨hab, hc, ht.2, fun i => (hi i).2⟩

theorem Indexed.sameWarehouse {c : ι → Tables F} {t : Tables F} (h : Indexed site c t) (w : ℤ) :
    SameWarehouse w (c (site w)) t :=
  ⟨h.instances _, h.sound, fun {k id} hid => by rw [← hid]; exact h.split.row id⟩

variable [DecidableEq ι]

/-- **What only reads** is answered at one instance. -/
theorem Indexed.reads {x : Op F α} {w : ℤ} (h : ∀ s t : Tables F, SameWarehouse w s t → s.Named → t.Named → Observes s t x x Eq) :
    Sim (Indexed site) (onSite (site w) x) x fun a b c t => a = b ∧ Indexed site c t := by
  intro c t hc
  have hrel := h (c (site w)) t (hc.sameWarehouse w) (hc.instancesNamed _) hc.named _ _ ⟨rfl, rfl⟩
  rw [onSite_apply]
  generalize x (c (site w)) = r at hrel
  generalize x t = r' at hrel
  cases hrel with
  | none => exact Option.Rel.none
  | @some r r' hr =>
    obtain ⟨hab, hs, ht⟩ := hr
    refine Option.Rel.some ⟨hab, ?_⟩
    dsimp only
    rw [hs, ht, Function.update_eq_self]
    exact hc

variable [Money F]

/-- **A committed transaction** keeps the indexes. -/
theorem Txn.commit_kept (x : Txn F) (free : Option HashOrder) :
    Triple Tables.Kept (x.reply.commit free) fun _ => Tables.Kept :=
  fun _ ht _ _ hrun => ⟨(Txn.commit_step ht.1 hrun).1, Txn.commit_named ht.1 ht.2 hrun⟩

omit [DecidableEq ι] in
/-- So does what it replies with. -/
theorem Txn.kept {x : Tx F α} {f : α → Reply F} (X : Txn F) (hX : X.reply = x >>= fun a => pure (f a))
    (free : Option HashOrder) : Triple Tables.Kept (x.commit free) fun _ => Tables.Kept := by
  intro t ht a t' hrun
  refine X.commit_kept free t ht (f a) t' ?_
  rw [hX, Tx.commit_map, hrun]
  rfl

/-- **A job at its sites** keeps the indexes of all instances. -/
theorem Job.atSites_kept (site : ℤ → ι) (how : Conduct F) (j : Job F) :
    Triple (fun c => ∀ i, (c i).Kept) (j.atSites site how) fun _ c => ∀ i, (c i).Kept := by
  cases j with
  | newOrder w d c items now =>
    refine Triple.bind (Q := fun _ c => ∀ i, (c i).Kept) ?_ fun _ => Triple.pure fun _ h => h
    have hhome := (Txn.kept (F := F) (.newOrderHome w d c items now .new) rfl (how.free w)).onSite (site w)
    have hremote := fun r => (Txn.kept (F := F) (.newOrderRemote w r items) rfl (how.free r)).onSite (site r)
    rw [distributedNewOrder, newOrderParts]
    refine hhome.bind fun r => ?_
    refine (Triple.mapM (I := fun _ (c : ι → Tables F) => ∀ i, (c i).Kept) (J := fun _ _ => True)
      (fun r _ => (hremote r).post fun _ _ h => ⟨trivial, h⟩) _).bind fun parts => Triple.of_fact fun _ => ?_
    split
    · exact (Triple.lift _).bind fun _ => Triple.of_fact fun _ => Triple.pure fun _ h => h
    · exact Triple.pure fun _ h => h
  | payment w d cW cD c hAmount now =>
    refine Triple.bind (Q := fun _ c => ∀ i, (c i).Kept) ?_ fun _ => Triple.pure fun _ h => h
    rw [paymentParts]
    refine ((Txn.kept (.paymentHome w d cW cD c hAmount now) rfl (how.free w)).onSite (site w)).bind fun _ => ?_
    refine ((Txn.kept (.paymentRemote w d cW cD c hAmount how.output) rfl (how.free cW)).onSite (site cW)).bind
      fun _ => ?_
    exact Triple.pure fun _ h => h
  | delivery w carrierId now =>
    refine Triple.bind (Q := fun _ c => ∀ i, (c i).Kept) ?_ fun _ => Triple.pure fun _ h => h
    exact (Txn.kept (.delivery w carrierId now) rfl (how.free w)).onSite (site w)

/-- **A job** is answered at the instances. -/
theorem Indexed.job (j : Job F) (how : Conduct F) (o : HashOrder) (free : Option HashOrder) :
    Sim (Indexed site) (j.atSites site how) ((j.txn o).reply.commit free) fun a b c t => a = b ∧ Indexed site c t :=
  Indexed.sim (j.sim how o free) (j.atSites_kept site how) ((j.txn o).commit_kept free)

omit [DecidableEq ι] in
/-- A payment by a last name that is not looked up. -/
theorem Tx.paymentByName_commit_of_none {w d cW cD : ℤ} {cLast : List Char} {hAmount : F} {now : List Char}
    {free : Option HashOrder} {t : Tables F} (h : Op.findCustomerByName cW cD cLast t = none) :
    (Tx.paymentByName w d cW cD cLast hAmount now).commit free t = none := by
  have hrun : ∀ undo, Tx.paymentByName w d cW cD cLast hAmount now ⟨t, undo⟩ = none := fun undo => by
    rw [Tx.paymentByName, bind_apply, Op.tx_apply, h]
    rfl
  cases free with
  | none => rw [Tx.commit, hrun]; rfl
  | some o => rw [Tx.commit, hrun]; rfl

/-- **A payment by last name**, where the customer is at the instance of the warehouse. -/
theorem Indexed.paymentByName {w cW : ℤ} (hsite : site cW = site w) (d cD : ℤ) (cLast : List Char) (hAmount : F)
    (now : List Char) (free free' : Option HashOrder) :
    Sim (Indexed site) (onSite (site w) ((Tx.paymentByName w d cW cD cLast hAmount now).commit free))
      ((Tx.paymentByName w d cW cD cLast hAmount now).commit free') fun a b c t => a = b ∧ Indexed site c t := by
  intro c t hc
  have hsame : SameWarehouse cW (c (site w)) t := hsite ▸ hc.sameWarehouse cW
  rcases hsame.chooses (hc.instancesNamed _) hc.named cD (.lastName cLast) with ⟨cId, hs, ht⟩ | ⟨_, heq, hs, ht⟩
  · -- the payment by the id that is found
    have hpay : ∀ {t : Tables F}, t.Sound → (CustomerChoice.lastName cLast).Chooses cW cD t cId → ∀ free,
        (Tx.paymentByName w d cW cD cLast hAmount now).commit free t =
          (Tx.payment w d cW cD cId hAmount now).commit free t := fun ht hwho free => hwho.payment_commit ht now free
    have hj := payment_journaled (F := F) w d cW cD cId hAmount now
    have hsim := @Indexed.sim _ _ site _ _ _
      (Deployed.sim ((payment_refines w d cW cD cId hAmount now).onSite_sim hj free (site w))
        (Db.Split.onSite_eq fun _ => Db.payment_beside hsite d cD cId hAmount now) (fun _ _ => rfl)
        ((payment_refines w d cW cD cId hAmount now).commit_sim hj free'))
      ((Txn.kept (.payment w d cW cD cId hAmount now) rfl free).onSite (site w))
      (Txn.kept (.payment w d cW cD cId hAmount now) rfl free')
    have hrel := hsim c t hc
    rw [onSite_apply] at hrel ⊢
    rw [hpay (hc.instances _) hs, hpay hc.sound ht]
    exact hrel
  · obtain rfl := CustomerChoice.lastName.inj heq
    rw [onSite_apply, Tx.paymentByName_commit_of_none hs, Tx.paymentByName_commit_of_none ht]
    exact Option.Rel.none

omit [Money F] in
/-- **Order status**, by id or by last name. -/
theorem Indexed.orderStatus (w d : ℤ) (customer : CustomerChoice) :
    Sim (Indexed site) (onSite (site w) (customer.orderStatus w d)) (customer.orderStatus (F := F) w d)
      fun a b c t => a = b ∧ Indexed site c t := by
  refine Indexed.reads fun s t h hs ht => ?_
  cases customer with
  | id cId => exact h.orderStatus d cId
  | lastName cLast => exact h.orderStatusByName hs ht d cLast

/-- **A request** is answered at the instances as on one. -/
theorem Request.sim (r : Request F) (hr : r.Routable site) (how : Conduct F) (o : HashOrder) :
    Sim (Indexed site) (r.atSites site how) (r.ask o) fun a b c t => a = b ∧ Indexed site c t := by
  have hjob : ∀ j : Job F, Sim (Indexed site) (j.atSites site how >>= fun a => pure (Answer.reply a))
      ((j.txn o).reply.commit none >>= fun a => pure (Answer.reply a)) fun a b c t => a = b ∧ Indexed site c t :=
    fun j => (Indexed.job j how o none).map Answer.reply
  cases r with
  | stockLevel w d threshold => exact (Indexed.reads fun s t h _ _ => h.stockLevel d threshold).map Answer.stockLevel
  | orderStatus w d customer => exact (Indexed.orderStatus w d customer).map Answer.orderStatus
  | delivery w carrier now =>
    have h := hjob (.delivery w carrier now.val)
    rw [Job.txn, Txn.reply, Tx.commit_bind_pure, bind_assoc] at h
    exact h
  | payment w d cW cD customer hAmount now =>
    cases customer with
    | id cId =>
      have h := hjob (.payment w d cW cD cId hAmount now.val)
      rw [Job.txn, Txn.reply, Tx.commit_bind_pure, bind_assoc] at h
      exact h
    | lastName cLast =>
      exact (Indexed.paymentByName hr d cD cLast hAmount now.val (how.free w) none).map fun output =>
        Answer.reply (.payment output)
  | newOrder w d c items rollback now =>
    have h := hjob (.newOrder w d c items now.val)
    rw [Job.txn, Txn.reply, Tx.commit_bind_pure, bind_assoc] at h
    exact h

/-- **A run of requests** on several instances gives the answers of one instance, and leaves its rows, each at the
instance of its warehouse: or both of them fail, as do both of them where an assertion of the client does. So what
the client returns is what it returns of one instance. -/
theorem deployed_answers {c : ι → Tables F} {t : Tables F} (h : Indexed site c t)
    (calls : List (Request F × Conduct F × HashOrder)) (hr : ∀ e ∈ calls, e.1.Routable site) :
    Option.Rel (fun r r' => r.1 = r'.1 ∧ Indexed site r.2 r'.2)
        (runAll (fun e => e.1.atSites site e.2.1 >>= fun a => do return (a, ← e.1.accept a)) calls c)
        (runAll (fun e => e.1.ask e.2.2 >>= fun a => do return (a, ← e.1.accept a)) calls t) ∧
      Option.Rel (fun r r' => r.1 = r'.1 ∧ Indexed site r.2 r'.2)
        (runAll (fun e => e.1.atSites site e.2.1 >>= fun a => liftM (e.1.accept a)) calls c)
        (runAll (fun e => e.1.send e.2.2) calls t) := by
  constructor
  · refine Sim.runAll (fun e he => ?_) c t h
    refine (e.1.sim (hr e he) e.2.1 e.2.2).bind_eq fun a => ?_
    exact (Sim.lift _).bind_eq fun result => Sim.of_fact fun _ => Sim.pure fun _ _ hP => ⟨rfl, hP⟩
  · refine Sim.runAll (fun e he => ?_) c t h
    rw [Request.send_eq]
    refine (e.1.sim (hr e he) e.2.1 e.2.2).bind_eq fun a => ?_
    exact (Sim.lift _).post fun _ _ _ _ h => ⟨h.1, h.2.2⟩

end Kept

/-! ### Two warehouses -/

theorem twinTables_indexed : Indexed id (fun _ : ℤ => twinTables) twinTables := by
  have hkeyed : ∀ i ∈ twinDatabase, i.Keyed := by simp [twinDatabase, smallDatabase, Insertion.Keyed]
  have hn : twinTables.Named := insertAll_named Tables.empty_named hkeyed twinTables_eq
  exact ⟨⟨fun _ => twinTables_sound, twinTables_sound, twinTables_sound.keyed.split⟩, hn, fun _ => hn⟩

open TPCCClient (midnight) in
/-- An order that both warehouses supply, is looked up and is delivered, and payments, by id and by last name. -/
def twinRequests : List (Request ℚ × Conduct ℚ × HashOrder) :=
  [.newOrder 1 1 1 suppliedItems false midnight, .orderStatus 1 1 (.lastName []),
    .payment 2 1 2 1 (.lastName []) 5 midnight, .payment 2 1 1 1 (.id 1) 6 midnight, .delivery 1 3 midnight,
    .orderStatus 1 1 (.id 1)].map fun r => (r, ⟨.asInserted, fun _ => none, usedBuffer⟩, .asInserted)

theorem deployed_answers_twin : ∃ answers c t,
    runAll (fun e => e.1.atSites id e.2.1 >>= fun a => do return (a, ← e.1.accept a)) twinRequests
        (fun _ : ℤ => twinTables) = some (answers, c) ∧
      runAll (fun e => e.1.ask e.2.2 >>= fun a => do return (a, ← e.1.accept a)) twinRequests twinTables =
        some (answers, t) ∧ Indexed id c t := by
  have hrun : (runAll (fun e => e.1.ask e.2.2 >>= fun a => do return (a, ← e.1.accept a)) twinRequests
      twinTables).isSome := by decide +kernel
  obtain ⟨⟨answers, t⟩, ht⟩ := Option.isSome_iff_exists.mp hrun
  have hrel := (deployed_answers twinTables_indexed twinRequests (by simp [twinRequests, Request.Routable])).1
  rw [ht] at hrel
  generalize hsites : runAll (fun e => e.1.atSites id e.2.1 >>= fun a => do return (a, ← e.1.accept a)) twinRequests
    (fun _ : ℤ => twinTables) = r at hrel
  cases hrel with
  | @some r _ h =>
    obtain ⟨answers', c⟩ := r
    obtain ⟨rfl, hc⟩ := h
    exact ⟨answers', c, t, rfl, ht, hc⟩

end TpccBench
