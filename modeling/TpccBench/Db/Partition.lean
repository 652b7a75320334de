import TpccBench.Db.Distributed
import TpccBench.Db.SplitPayment
import TpccBench.Lib.Interleave

/-!
# A database that is split over instances

A payment and a delivery read and write rows of one warehouse in each of their parts, as a new order does
(`TpccBench.Db.Split`). So a run in which each part is committed at the instance of its warehouse answers what a
run on one instance answers, and leaves the same rows (`TpccBench.distributed_run`).

The customer of a payment is named by the id: a home part of a payment by last name does not know whom to
write in the history.
-/

namespace TpccBench

open Prog

variable {F : Type} {ι : Type} [DecidableEq ι]

namespace Db

variable {site : ℤ → ι} {c : ι → Db F} {w d : ℤ}

/-! ### Payments and deliveries at their sites -/

/-- A history row is appended at its warehouse. -/
theorem insertHistory_beside {h : History F} (hw : h.hWId = w) :
    Sim (Beside site c (site w)) (insertHistory h) (insertHistory h) fun a b s db =>
      a = b ∧ Beside site c (site w) s db := by
  intro s db hs
  refine Option.Rel.some ⟨rfl, ?_⟩
  refine ⟨hs.keyed.history _, fun i => ?_, fun {k} id => ?_, fun i id => ?_, fun w' => ?_⟩
  · have hi := Split.items hs i
    by_cases heq : i = site w
    · subst heq
      rw [Function.update_self] at hi ⊢
      exact hi
    · rw [Function.update_of_ne heq] at hi ⊢
      exact hi
  · have hrow := Split.row hs id
    by_cases heq : site (RowId.warehouse k id) = site w
    · rw [heq, Function.update_self] at hrow ⊢
      exact hrow
    · rw [Function.update_of_ne heq] at hrow ⊢
      exact hrow
  · have htext := Split.text hs i id
    by_cases heq : i = site w
    · subst heq
      rw [Function.update_self] at htext ⊢
      exact htext
    · rw [Function.update_of_ne heq] at htext ⊢
      exact htext
  · have hhist := Split.history hs w'
    by_cases heq : site w' = site w
    · rw [heq, Function.update_self] at hhist ⊢
      rw [List.filter_append, List.filter_append, hhist]
    · rw [Function.update_of_ne heq] at hhist ⊢
      have hne : ¬h.hWId = w' := fun hw' => heq (by rw [← hw', hw])
      rw [List.filter_append, List.filter_cons_of_neg (by simpa), List.filter_nil, List.append_nil]
      exact hhist

theorem remove_beside {k : Kind} (hk : k ≠ .stock) {id : RowId k} (hid : RowId.warehouse k id = w) :
    Sim (Beside site c (site w)) (remove k id) (remove k id) fun a b s db => a = b ∧ Beside site c (site w) s db := by
  intro s db h
  exact Option.Rel.some ⟨rfl, h.setRow hid (h.keyed.remove id) (Beside.text_setRow_of_ne hk)⟩

/-- The oldest order depends on the queue of the district. -/
theorem oldest_congr {s db : Db F} (h : ∀ o, s.row .newOrder (w, d, o) = db.row .newOrder (w, d, o)) :
    s.oldest w d = db.oldest w d := by
  refine Option.ext fun o => ?_
  rw [oldest_eq_some, oldest_eq_some, Oldest, Oldest]
  simp only [h]

variable [Money F]

/-- **The home part of a payment** at its site. -/
theorem paymentHome_beside (w d cW cD cId : ℤ) (hAmount : F) (now : List Char) :
    Sim (Beside site c (site w)) (paymentHome w d cW cD cId hAmount now) (paymentHome w d cW cD cId hAmount now)
      fun a b s db => a = b ∧ Beside site c (site w) s db := by
  rw [paymentHome]
  refine find_beside (get_beside (k := .warehouse) (w := w) (fun _ _ h => h) rfl fun ware => ?_)
  refine Sim.bind_eq (Q := fun _ => Beside site c (site w))
    (set_beside (k := .warehouse) (by simp) rfl rfl) fun _ => ?_
  refine find_beside (get_beside (k := .district) (w := w) (fun _ _ h => h) rfl fun dist => ?_)
  refine Sim.bind_eq (Q := fun _ => Beside site c (site w))
    (set_beside (k := .district) (by simp) rfl rfl) fun _ => ?_
  refine (Sim.lift _).bind_eq fun hDate => Sim.of_fact fun _ => ?_
  refine (Sim.lift _).bind_eq fun hData => Sim.of_fact fun _ => ?_
  refine Sim.bind_eq (Q := fun _ => Beside site c (site w)) (insertHistory_beside rfl) fun _ => ?_
  exact Sim.pure fun _ _ h => ⟨rfl, h⟩

/-- **The part at the warehouse of the customer** at its site. -/
theorem paymentRemote_beside (w d cW cD cId : ℤ) (hAmount : F) (output output' : PaymentOutput F) :
    Sim (Beside site c (site cW)) (paymentRemote w d cW cD cId hAmount output)
      (paymentRemote w d cW cD cId hAmount output') fun a b s db => a = b ∧ Beside site c (site cW) s db := by
  rw [paymentRemote, paymentRemote]
  refine find_beside ?_
  refine Sim.bind (Q := fun a b s db => Tx.zeroWarehouseDistrict a = Tx.zeroWarehouseDistrict b ∧
    Beside site c (site cW) s db) ?_ fun a b => Sim.of_fact fun hab => Sim.pure fun _ _ h => ⟨hab, h⟩
  rw [internalPaymentRemote, internalPaymentRemote]
  refine get_beside (k := .customer) (w := cW) (fun _ _ h => h) rfl fun cust => ?_
  refine (Sim.lift _).bind_eq fun cData => Sim.of_fact fun _ => ?_
  refine Sim.bind_eq (Q := fun _ => Beside site c (site cW))
    (set_beside (k := .customer) (by simp) rfl rfl) fun _ => ?_
  exact Sim.pure fun _ _ h => ⟨rfl, h⟩

theorem deliverLine_beside (w d o : ℤ) (now : List Char) (total : F) (i : ℕ) :
    Sim (Beside site c (site w)) (deliverLine w d o now total i) (deliverLine w d o now total i)
      fun a b s db => a = b ∧ Beside site c (site w) s db := by
  rw [deliverLine]
  refine find_beside (get_beside (k := .orderLine) (w := w) (fun _ _ h => h) rfl fun l => ?_)
  refine (Sim.assert fun _ _ _ => Iff.rfl).bind_eq fun _ => Sim.of_fact fun _ => ?_
  refine (Sim.lift _).bind_eq fun olDeliveryD => Sim.of_fact fun _ => ?_
  refine (Sim.assert fun _ _ _ => Iff.rfl).bind_eq fun _ => Sim.of_fact fun _ => ?_
  refine Sim.bind_eq (Q := fun _ => Beside site c (site w))
    (set_beside (k := .orderLine) (by simp) rfl rfl) fun _ => ?_
  exact Sim.pure fun _ _ h => ⟨rfl, h⟩

theorem deliverOrder_beside (w carrierId : ℤ) (now : List Char) (d o : ℤ) :
    Sim (Beside site c (site w)) (deliverOrder w carrierId now d o) (deliverOrder w carrierId now d o)
      fun a b s db => a = b ∧ Beside site c (site w) s db := by
  rw [deliverOrder]
  refine Sim.bind_eq (Q := fun _ => Beside site c (site w))
    (remove_beside (k := .newOrder) (by simp) rfl) fun _ => ?_
  refine find_beside (get_beside (k := .order) (w := w) (fun _ _ h => h) rfl fun order => ?_)
  refine (Sim.assert fun _ _ _ => Iff.rfl).bind_eq fun _ => Sim.of_fact fun _ => ?_
  refine Sim.bind_eq (Q := fun _ => Beside site c (site w))
    (set_beside (k := .order) (by simp) rfl rfl) fun _ => ?_
  refine (Sim.foldlM (I := fun _ => Beside site c (site w))
    (fun total i _ => deliverLine_beside w d o now total i) _ _).bind_eq fun total => ?_
  refine find_beside (get_beside (k := .customer) (w := w) (fun _ _ h => h) rfl fun cust => ?_)
  refine Sim.bind_eq (Q := fun _ => Beside site c (site w))
    (set_beside (k := .customer) (by simp) rfl rfl) fun _ => ?_
  exact Sim.pure fun _ _ h => ⟨rfl, h⟩

theorem deliverDistrict_beside (w carrierId : ℤ) (now : List Char) (d : ℤ) :
    Sim (Beside site c (site w)) (deliverDistrict w carrierId now d) (deliverDistrict w carrierId now d)
      fun a b s db => a = b ∧ Beside site c (site w) s db := by
  rw [deliverDistrict]
  refine find_beside ?_
  intro s db h
  -- the queue of the district is the one at its site
  have hold : s.oldest w d = db.oldest w d := oldest_congr fun o => h.row rfl
  rw [bind_apply, bind_apply, show (StateT.get : Dx F (Db F)) s = some (s, s) from rfl,
    show (StateT.get : Dx F (Db F)) db = some (db, db) from rfl, Option.bind_some, Option.bind_some]
  dsimp only
  rw [hold]
  cases db.oldest w d with
  | none => exact Option.Rel.some ⟨rfl, h⟩
  | some o => exact deliverOrder_beside w carrierId now d o s db h

/-- **A delivery** at its site. -/
theorem delivery_beside (w carrierId : ℤ) (now : List Char) :
    Sim (Beside site c (site w)) (delivery w carrierId now) (delivery w carrierId now)
      fun a b s db => a = b ∧ Beside site c (site w) s db := by
  rw [delivery]
  refine (Sim.mapM (I := fun _ => Beside site c (site w))
    (fun d _ => deliverDistrict_beside w carrierId now d) _).bind_eq fun orders => ?_
  exact Sim.pure fun _ _ h => ⟨rfl, h⟩

end Db

/-! ### Jobs -/

/-- **A payment in parts**: the home part, the other part, and `paymentCombine`. -/
def paymentParts {S : Type} (home remote : Prog S (PaymentOutput F)) : Prog S (PaymentOutput F) := do
  let home ← home
  let remote ← remote
  return paymentCombine remote home

/-- What a database is asked to do. -/
inductive Job (F : Type)
  | newOrder (warehouseId districtId customerId : ℤ) (items : List NewOrderItem) (now : List Char)
  | payment (warehouseId districtId cWarehouseId cDistrictId customerId : ℤ) (hAmount : F) (now : List Char)
  | delivery (warehouseId carrierId : ℤ) (now : List Char)

/-- How a job is carried out: the order of the remote warehouses, whether the part of a warehouse is committed with
an undo buffer, and the buffer that the part of a customer reports in. -/
structure Conduct (F : Type) where
  order : HashOrder
  free : ℤ → Option HashOrder
  output : PaymentOutput F

namespace Job

/-- The transaction that does the job on one instance. -/
def txn [Money F] (o : HashOrder) : Job F → Txn F
  | newOrder w d c items now => .newOrder o w d c items now .new
  | payment w d cW cD c hAmount now => .payment w d cW cD c hAmount now
  | delivery w carrierId now => .delivery w carrierId now

/-- **The parts of a job**, each at the instance of its warehouse. -/
def atSites [Money F] (site : ℤ → ι) (how : Conduct F) : Job F → Prog (ι → Tables F) (Reply F)
  | newOrder w d c items now => do
    let (result, output) ← distributedNewOrder site how.free w d c items now .new
      (how.order.iter _ (newOrderRemoteWarehouses w items))
    return .newOrder result output
  | payment w d cW cD c hAmount now => do
    let output ← paymentParts
      (onSite (site w) ((Tx.paymentHome w d cW cD c hAmount now).commit (how.free w)))
      (onSite (site cW) ((Tx.paymentRemote w d cW cD c hAmount how.output).commit (how.free cW)))
    return .payment output
  | delivery w carrierId now => do
    let orders ← onSite (site w) ((Tx.delivery w carrierId now).commit (how.free w))
    return .delivery orders

end Job

/-! ### Runs -/

/-- **A database on several instances**, and one that has all of it. -/
structure Deployed (site : ℤ → ι) (c : ι → Tables F) (t : Tables F) : Prop where
  instances (i : ι) : (c i).Sound
  sound : t.Sound
  split : Db.Split site (fun i => (c i).db) t.db

section Runs

variable [Money F] {site : ℤ → ι} {α : Type}

omit [DecidableEq ι] [Money F] in
/-- **From the instances to one instance**: by way of their databases, and of the parts on one database. -/
theorem Deployed.sim {x : Prog (ι → Tables F) α} {y : Prog (ι → Db F) α} {z z' : Dx F α} {x' : Op F α}
    (hx : Sim (fun c d => ∀ i, (c i).Sound ∧ (c i).db = d i) x y fun a b c d =>
      a = b ∧ ∀ i, (c i).Sound ∧ (c i).db = d i)
    (hy : Sim (Db.Split site) y z fun a b c db => a = b ∧ Db.Split site c db)
    (hz : ∀ db : Db F, db.Keyed → z db = z' db)
    (hx' : Sim (fun t db => t.Sound ∧ t.db = db) x' z' fun a b t db => a = b ∧ t.Sound ∧ t.db = db) :
    Sim (Deployed site) x x' fun a b c t => a = b ∧ Deployed site c t := by
  intro c t h
  have h₁ := hx c (fun i => (c i).db) fun i => ⟨h.instances i, rfl⟩
  have h₂ := hy (fun i => (c i).db) t.db h.split
  rw [hz t.db h.split.keyed] at h₂
  have h₃ := rel_symm (hx' t t.db ⟨h.sound, rfl⟩)
  refine rel_mono (rel_trans (rel_trans h₁ h₂) h₃) ?_
  rintro r r' ⟨r₂, ⟨r₁, ⟨hr, hs⟩, hr₁, hsplit⟩, hr', hs', hdb⟩
  refine ⟨hr.trans (hr₁.trans hr'.symm), fun i => (hs i).1, hs', ?_⟩
  rw [hdb, show (fun i => (r.2 i).db) = r₁.2 from funext fun i => (hs i).2]
  exact hsplit

omit [DecidableEq ι] [Money F] in
theorem paymentParts_sim {S T : Type} {P : S → T → Prop} {home remote : Prog S (PaymentOutput F)}
    {home' remote' : Prog T (PaymentOutput F)} (hhome : Sim P home home' fun a b s t => a = b ∧ P s t)
    (hremote : Sim P remote remote' fun a b s t => a = b ∧ P s t) :
    Sim P (paymentParts home remote) (paymentParts home' remote') fun a b s t => a = b ∧ P s t := by
  rw [paymentParts, paymentParts]
  exact hhome.bind_eq fun out => hremote.map _

omit [DecidableEq ι] in
/-- **On one database** the parts of a payment are the payment. -/
theorem paymentParts_eq {db : Db F} (hk : db.Keyed) (w d cW cD c : ℤ) (hAmount : F) (now : List Char)
    (output : PaymentOutput F) :
    paymentParts (Db.paymentHome w d cW cD c hAmount now) (Db.paymentRemote w d cW cD c hAmount output) db =
      Db.payment w d cW cD c hAmount now db := by
  refine Option.ext fun r => Iff.trans ?_ (Db.payment_iff hk).symm
  constructor
  · intro h
    obtain ⟨home, db₁, hhome, h⟩ := bind_eq_some h
    obtain ⟨p, hp, heq⟩ := (Db.paymentHome_iff hk).mp hhome
    obtain ⟨rfl, rfl⟩ := Prod.mk.inj heq
    obtain ⟨remote, db₂, hremote, hret⟩ := bind_eq_some h
    obtain ⟨cust, cData, hcust, hdata, heq⟩ := (Db.paymentRemote_iff (hp.keyed hk)).mp hremote
    obtain ⟨rfl, rfl⟩ := Prod.mk.inj heq
    exact ⟨p, cust, cData, hp, (PaidHome.apply_customer _).symm.trans hcust, hdata, (Option.some.inj hret).symm⟩
  · rintro ⟨p, cust, cData, hp, hcust, hdata, rfl⟩
    have hhome : Db.paymentHome w d cW cD c hAmount now db =
        some (.home p.ware p.dist, p.apply w d cW cD c hAmount db) := (Db.paymentHome_iff hk).mpr ⟨p, hp, rfl⟩
    have hcust : (p.apply w d cW cD c hAmount db).row .customer (cW, cD, c) = some cust :=
      (PaidHome.apply_customer _).trans hcust
    have hremote : Db.paymentRemote w d cW cD c hAmount output (p.apply w d cW cD c hAmount db) = some _ :=
      (Db.paymentRemote_iff (hp.keyed hk)).mpr ⟨cust, cData, hcust, hdata, rfl⟩
    rw [paymentParts, bind_apply, hhome, Option.bind_some, bind_apply, hremote]
    rfl

omit [DecidableEq ι] in
/-- **On one database** the parts of a new order are the new order, whichever way the sets are gone through. -/
theorem newOrderParts_eq {db : Db F} (hk : db.Keyed) (o o' : HashOrder) (w d c : ℤ) (items : List NewOrderItem)
    (now : List Char) (output : NewOrderOutput F) :
    newOrderParts (Db.newOrderHome w d c items now output) (fun r => Db.newOrderRemote w r items)
        (o.iter _ (newOrderRemoteWarehouses w items)) db = Db.newOrder o' w d c items now output db := by
  rw [Db.newOrderParts_eq_over hk, Db.newOrder_eq_over, Db.newOrderOver, Db.newOrderOver, bind_apply, bind_apply]
  cases hhome : Db.newOrderHome w d c items now output db with
  | none => rfl
  | some r =>
    obtain ⟨⟨result, out⟩, db₁⟩ := r
    have hk₁ : db₁.Keyed := by
      rcases Db.newOrderHome_eq_some hk hhome with ⟨-, rfl⟩ | ⟨-, p, hp, rfl⟩
      · exact hk
      · exact (hp.keyed hk).takeStock _
    rw [Option.bind_some, Option.bind_some]
    cases result with
    | false => rfl
    | true =>
      show (_ >>= fun _ => _ : Dx F _) db₁ = (_ >>= fun _ => _ : Dx F _) db₁
      rw [bind_apply, bind_apply, Db.newOrderRemotes_perm hk₁ ((o.perm _ _).trans (o'.perm _ _).symm)]

theorem delivery_journaled (w carrierId : ℤ) (now : List Char) : (Tx.delivery (F := F) w carrierId now).Journaled :=
  Keeps.journaled (fun _ => delivery_keeps w carrierId now) fun _ _ _ _ _ => List.not_mem_nil

omit [Money F] in
/-- What an instance commits, on its database. -/
theorem Refines.onSite_sim {β : Type} {x : Tx F β} {y : Dx F β} (h : Refines x y) (hj : x.Journaled)
    (free : Option HashOrder) (i : ι) :
    Sim (fun c d => ∀ i, (c i).Sound ∧ (c i).db = d i) (onSite i (x.commit free)) (onSite i y) fun a b c d =>
      a = b ∧ ∀ i, (c i).Sound ∧ (c i).db = d i := Sim.onSite (h.commit_sim hj free) i

omit [Money F] in
theorem Db.Split.onSite_eq {i : ι} {x y : Dx F α}
    (h : ∀ c, Sim (Db.Beside site c i) x y fun a b s db => a = b ∧ Db.Beside site c i s db) :
    Sim (Db.Split site) (Prog.onSite i x) y fun a b c db => a = b ∧ Db.Split site c db := Db.Split.onSite h

theorem newOrder_sim (how : Conduct F) (o : HashOrder) (free : Option HashOrder) (w d cId : ℤ)
    (items : List NewOrderItem) (now : List Char) (output : NewOrderOutput F) :
    Sim (Deployed site)
      (distributedNewOrder site how.free w d cId items now output (how.order.iter _ (newOrderRemoteWarehouses w items)))
      ((Tx.newOrder o w d cId items now output).commit free) fun a b c t => a = b ∧ Deployed site c t :=
  Deployed.sim
    (newOrderParts_sim
      ((newOrderHome_refines w d cId items now output).onSite_sim (newOrderHome_journaled w d cId items now output) _ _)
      (fun r => (newOrderRemote_refines w r items).onSite_sim (newOrderRemote_journaled w r items) _ _) _)
    (newOrderParts_sim
      (Db.Split.onSite_eq fun _ => Db.newOrderHome_beside w d cId items now output)
      (fun r => Db.Split.onSite_eq fun _ => Db.newOrderRemote_beside w r items) _)
    (fun _ hk => newOrderParts_eq hk how.order o w d cId items now output)
    ((newOrder_refines o w d cId items now output).commit_sim (newOrder_journaled o w d cId items now output) free)

theorem payment_sim (how : Conduct F) (free : Option HashOrder) (w d cW cD cId : ℤ) (hAmount : F) (now : List Char) :
    Sim (Deployed site)
      (paymentParts (onSite (site w) ((Tx.paymentHome w d cW cD cId hAmount now).commit (how.free w)))
        (onSite (site cW) ((Tx.paymentRemote w d cW cD cId hAmount how.output).commit (how.free cW))))
      ((Tx.payment w d cW cD cId hAmount now).commit free) fun a b c t => a = b ∧ Deployed site c t :=
  Deployed.sim
    (paymentParts_sim
      (Refines.onSite_sim (paymentHome_refines w d cW cD cId hAmount now)
        (paymentHome_journaled w d cW cD cId hAmount now) _ _)
      ((paymentRemote_refines w d cW cD cId hAmount how.output).onSite_sim
        (paymentRemote_journaled w d cW cD cId hAmount how.output) _ _))
    (paymentParts_sim
      (Db.Split.onSite_eq fun _ => Db.paymentHome_beside w d cW cD cId hAmount now)
      (Db.Split.onSite_eq fun _ => Db.paymentRemote_beside w d cW cD cId hAmount how.output how.output))
    (fun _ hk => paymentParts_eq hk w d cW cD cId hAmount now how.output)
    ((payment_refines w d cW cD cId hAmount now).commit_sim (payment_journaled w d cW cD cId hAmount now) free)

theorem delivery_sim (how : Conduct F) (free : Option HashOrder) (w carrierId : ℤ) (now : List Char) :
    Sim (Deployed site) (onSite (site w) ((Tx.delivery (F := F) w carrierId now).commit (how.free w)))
      ((Tx.delivery w carrierId now).commit free) fun a b c t => a = b ∧ Deployed site c t :=
  Deployed.sim
    ((delivery_refines w carrierId now).onSite_sim (delivery_journaled w carrierId now) _ _)
    (Db.Split.onSite_eq fun _ => Db.delivery_beside w carrierId now) (fun _ _ => rfl)
    ((delivery_refines w carrierId now).commit_sim (delivery_journaled w carrierId now) free)

omit [Money F] in
/-- What is done with a result is done after the commit. -/
theorem Tx.commit_bind_pure {β γ : Type} (x : Tx F β) (f : β → γ) (free : Option HashOrder) :
    Tx.commit free (x >>= fun a => pure (f a)) = x.commit free >>= fun a => pure (f a) := by
  funext t
  rw [Tx.commit_map, bind_apply]
  cases x.commit free t <;> rfl

/-- **A job** answers on the instances what it answers on one. -/
theorem Job.sim (j : Job F) (how : Conduct F) (o : HashOrder) (free : Option HashOrder) :
    Sim (Deployed site) (j.atSites site how) ((j.txn o).reply.commit free) fun a b c t =>
      a = b ∧ Deployed site c t := by
  cases j with
  | newOrder w d cId items now =>
    rw [txn, Txn.reply, Tx.commit_bind_pure]
    exact (newOrder_sim how o free w d cId items now .new).map _
  | payment w d cW cD cId hAmount now =>
    rw [txn, Txn.reply, Tx.commit_bind_pure]
    exact (payment_sim how free w d cW cD cId hAmount now).map _
  | delivery w carrierId now =>
    rw [txn, Txn.reply, Tx.commit_bind_pure]
    exact (delivery_sim how free w carrierId now).map _

/-- **A run on several instances** answers what a run on one instance answers, and leaves the same rows, each at
the instance of its warehouse: or both of them fail. -/
theorem distributed_run {c : ι → Tables F} {t : Tables F} (h : Deployed site c t)
    (calls : List (Job F × Conduct F × HashOrder × Option HashOrder)) :
    Option.Rel (fun r r' => r.1 = r'.1 ∧ Deployed site r.2 r'.2)
      (runAll (fun e => e.1.atSites site e.2.1) calls c)
      (runAll (fun e => (e.1.txn e.2.2.1).reply.commit e.2.2.2) calls t) :=
  (Sim.runAll fun e _ => e.1.sim e.2.1 e.2.2.1 e.2.2.2) c t h

end Runs

/-! ### Jobs of one warehouse -/

namespace Job

/-- The warehouse that is asked. -/
def home : Job F → ℤ
  | newOrder w _ _ _ _ => w
  | payment w _ _ _ _ _ _ => w
  | delivery w _ _ => w

/-- **A job of one warehouse**: it orders from its stock, and its own customer pays. -/
def Local : Job F → Prop
  | newOrder w _ _ items _ => ∀ item ∈ items, item.olSupplyWId = w
  | payment w _ cW _ _ _ _ => cW = w
  | delivery .. => True

end Job

section Local

variable [Money F] {site : ℤ → ι} {c : ι → Db F}

namespace Db

theorem newOrder_beside (o : HashOrder) {w : ℤ} (d cId : ℤ) {items : List NewOrderItem} (now : List Char)
    (output : NewOrderOutput F) (hlocal : ∀ item ∈ items, item.olSupplyWId = w) :
    Sim (Beside site c (site w)) (newOrder o w d cId items now output) (newOrder o w d cId items now output)
      fun a b s db => a = b ∧ Beside site c (site w) s db := by
  have hnone : o.iter _ (newOrderRemoteWarehouses w items) = [] := by
    refine List.eq_nil_iff_forall_not_mem.mpr fun r hr => ?_
    have hr := (o.perm _ _).mem_iff.mp hr
    obtain ⟨hne, item, hitem, rfl⟩ := ((newOrderRemoteWarehouses_spec w items).2 r).mp hr
    exact hne (hlocal item hitem)
  rw [newOrder_eq_over, hnone, newOrderOver]
  refine (newOrderHome_beside w d cId items now output).bind_eq fun r => ?_
  obtain ⟨result, out⟩ := r
  cases result with
  | false => exact Sim.pure fun _ _ h => ⟨rfl, h⟩
  | true => exact Sim.pure fun _ _ h => ⟨rfl, h⟩

/-- A payment of a customer at the same site. -/
theorem payment_beside {w cW : ℤ} (hsite : site cW = site w) (d cD cId : ℤ) (hAmount : F) (now : List Char) :
    Sim (Beside site c (site w)) (payment w d cW cD cId hAmount now) (payment w d cW cD cId hAmount now)
      fun a b s db => a = b ∧ Beside site c (site w) s db := by
  rw [payment]
  refine find_beside ((paymentHome_beside w d cW cD cId hAmount now).bind_eq fun output => ?_)
  rw [internalPaymentRemote, ← hsite]
  refine get_beside (k := .customer) (w := cW) (fun _ _ h => h) rfl fun cust => ?_
  refine (Sim.lift _).bind_eq fun cData => Sim.of_fact fun _ => ?_
  refine Sim.bind_eq (Q := fun _ => Beside site c (site cW))
    (set_beside (k := .customer) (by simp) rfl rfl) fun _ => ?_
  exact Sim.pure fun _ _ h => ⟨rfl, h⟩

end Db

/-- **A job of one warehouse** is done at the instance of the warehouse. -/
theorem Job.Local.sim {j : Job F} (hj : j.Local) (o : HashOrder) (free : Option HashOrder) :
    Sim (Deployed site) (onSite (site j.home) ((j.txn o).reply.commit free)) ((j.txn o).reply.commit free)
      fun a b c t => a = b ∧ Deployed site c t := by
  have hsim : ∀ {α : Type} {x : Tx F α} {y : Dx F α} (w : ℤ), Refines x y → x.Journaled →
      (∀ c : ι → Db F, Sim (Db.Beside site c (site w)) y y fun a b s db => a = b ∧ Db.Beside site c (site w) s db) →
        Sim (Deployed site) (onSite (site w) (x.commit free)) (x.commit free) fun a b c t =>
          a = b ∧ Deployed site c t := by
    intro α x y w href hx hbeside
    exact Deployed.sim (href.onSite_sim hx free _) (Db.Split.onSite_eq hbeside) (fun _ _ => rfl)
      (href.commit_sim hx free)
  have hx := (j.txn o).reply_journaled
  cases j with
  | newOrder w d cId items now =>
    exact hsim w ((newOrder_refines o w d cId items now .new).map _) hx fun c =>
      (Db.newOrder_beside o d cId now .new hj).map _
  | payment w d cW cD cId hAmount now =>
    obtain rfl : cW = w := hj
    exact hsim cW ((payment_refines cW d cW cD cId hAmount now).map _) hx fun c =>
      (Db.payment_beside rfl d cD cId hAmount now).map _
  | delivery w carrierId now =>
    exact hsim w ((delivery_refines w carrierId now).map _) hx fun c => (Db.delivery_beside w carrierId now).map _

/-- A committed job. -/
def Job.commit (e : Job F × HashOrder × Option HashOrder) : Op F (Reply F) := (e.1.txn e.2.1).reply.commit e.2.2

/-- The warehouse of a job that is committed. -/
def Job.warehouse (e : Job F × HashOrder × Option HashOrder) : ℤ := e.1.home

/-- **Jobs of different warehouses may be interleaved** in any way: a run in which those of each warehouse come in
the same order answers each of them alike, and leaves the same rows. -/
theorem interleaving {t t' : Tables F} (ht : t.Sound) {calls calls' : List (Job F × HashOrder × Option HashOrder)}
    {replies : List (Reply F)} (hlocal : ∀ e ∈ calls, e.1.Local)
    (hsame : ∀ w, programsAt Job.warehouse w calls' = programsAt Job.warehouse w calls)
    (hrun : runAll Job.commit calls t = some (replies, t')) :
    ∃ replies' t'', runAll Job.commit calls' t = some (replies', t'') ∧ t''.Sound ∧
      (∀ w, resultsAt Job.warehouse w calls' replies' = resultsAt Job.warehouse w calls replies) ∧
      t''.db.items = t'.db.items ∧ (∀ k, t''.db.row k = t'.db.row k) ∧ t''.db.history.Perm t'.db.history := by
  have hlocal' : ∀ e ∈ calls', e.1.Local := by
    intro e he
    have hmem : e ∈ programsAt Job.warehouse e.1.home calls' := List.mem_filter.mpr ⟨he, by simp [Job.warehouse]⟩
    rw [hsame] at hmem
    exact hlocal e (List.mem_filter.mp hmem).1
  -- each warehouse at a site of its own
  have hsim : ∀ l : List (Job F × HashOrder × Option HashOrder), (∀ e ∈ l, e.1.Local) →
      Sim (Deployed (id : ℤ → ℤ)) (runAtSites Job.warehouse Job.commit l) (runAll Job.commit l)
        fun a b c t => a = b ∧ Deployed id c t :=
    fun l hl => Sim.runAll fun e he => (hl e he).sim e.2.1 e.2.2
  have hdep : Deployed (id : ℤ → ℤ) (fun _ => t) t := ⟨fun _ => ht, ht, ht.keyed.split⟩
  have hrel := hsim calls hlocal (fun _ => t) t hdep
  rw [hrun] at hrel
  generalize hsites : runAtSites Job.warehouse Job.commit calls (fun _ : ℤ => t) = r at hrel
  cases hrel with
  | @some r _ h =>
    obtain ⟨replies₁, c⟩ := r
    obtain ⟨rfl, hc⟩ := h
    obtain ⟨replies', hsites', hresults⟩ := runAtSites_interleave hsame hsites
    have hrel' := hsim calls' hlocal' (fun _ => t) t hdep
    rw [hsites'] at hrel'
    generalize hrun' : runAll Job.commit calls' t = r' at hrel'
    cases hrel' with
    | @some _ r' h' =>
      obtain ⟨replies₂, t''⟩ := r'
      obtain ⟨rfl, hc'⟩ := h'
      refine ⟨replies', t'', rfl, hc'.sound, hresults, ?_, fun k => funext fun id' => ?_, ?_⟩
      · exact (hc'.split.items 0).symm.trans (hc.split.items 0)
      · exact (hc'.split.row id').symm.trans (hc.split.row id')
      · exact perm_of_filter_eq History.hWId fun w => (hc'.split.history w).symm.trans (hc.split.history w)

end Local

/-! ### Two warehouses -/

/-- The small database, with a warehouse of the same size. -/
def twinDatabase : List (Insertion ℚ) :=
  smallDatabase ++
    [.warehouse ⟨2, 0, 0, .empty, .zero⟩,
      .stock ⟨1, 2, 50, 0, 0, 0, fun _ => .empty, .empty⟩,
      .district ⟨1, 2, 0, 0, 1, .empty, .zero⟩,
      .customer ⟨1, 1, 2, 0, 0, 0, 0, 0, 0, .empty, .empty, .empty, .zero, .empty, .empty, .empty, .empty⟩]

theorem insertAll_twinDatabase : (insertAll twinDatabase Tables.empty).isSome := by decide +kernel

def twinTables : Tables ℚ := ((insertAll twinDatabase Tables.empty).get insertAll_twinDatabase).2

theorem twinTables_eq : insertAll twinDatabase Tables.empty = some ((), twinTables) := by
  rw [twinTables, Prod.eta, Option.some_get]

theorem twinTables_sound : twinTables.Sound := (insertAll_onDb Tables.empty_sound twinTables_eq).1

/-- A new order that both warehouses supply, a payment at a warehouse that is not the customer's, and a delivery. -/
def twinRun : List (Job ℚ × Conduct ℚ × HashOrder × Option HashOrder) :=
  [.newOrder 1 1 1 suppliedItems (List.replicate 14 '0'), .payment 2 1 1 1 1 5 (List.replicate 14 '0'),
    .delivery 1 3 (List.replicate 14 '0')].map fun j =>
      (j, ⟨.asInserted, fun _ => none, usedBuffer⟩, .asInserted, none)

theorem distributed_run_twin :
    ∃ replies c t, runAll (fun e => e.1.atSites id e.2.1) twinRun (fun _ : ℤ => twinTables) = some (replies, c) ∧
      runAll (fun e => (e.1.txn e.2.2.1).reply.commit e.2.2.2) twinRun twinTables = some (replies, t) ∧
      Deployed id c t := by
  have hrun : (runAll (fun e => (e.1.txn e.2.2.1).reply.commit e.2.2.2) twinRun twinTables).isSome := by
    decide +kernel
  obtain ⟨⟨replies, t⟩, ht⟩ := Option.isSome_iff_exists.mp hrun
  have hdep : Deployed id (fun _ : ℤ => twinTables) twinTables :=
    ⟨fun _ => twinTables_sound, twinTables_sound, twinTables_sound.keyed.split⟩
  have hrel := distributed_run hdep twinRun
  rw [ht] at hrel
  generalize hsites : runAll (fun e => e.1.atSites id e.2.1) twinRun (fun _ : ℤ => twinTables) = r at hrel
  cases hrel with
  | @some r _ h =>
    obtain ⟨replies', c⟩ := r
    obtain ⟨rfl, hc⟩ := h
    exact ⟨replies', c, t, rfl, ht, hc⟩

/-- A payment at each of the warehouses, and one more at the first. -/
def twinPayments : List (Job ℚ × HashOrder × Option HashOrder) :=
  [.payment 1 1 1 1 1 5 (List.replicate 14 '0'), .payment 2 1 2 1 1 6 (List.replicate 14 '0'),
    .payment 1 1 1 1 1 7 (List.replicate 14 '0')].map fun j => (j, .asInserted, none)

/-- The other warehouse comes first. -/
def twinPayments' : List (Job ℚ × HashOrder × Option HashOrder) :=
  [.payment 2 1 2 1 1 6 (List.replicate 14 '0'), .payment 1 1 1 1 1 5 (List.replicate 14 '0'),
    .payment 1 1 1 1 1 7 (List.replicate 14 '0')].map fun j => (j, .asInserted, none)

theorem interleaving_twin : ∃ replies t replies' t',
    runAll Job.commit twinPayments twinTables = some (replies, t) ∧
      runAll Job.commit twinPayments' twinTables = some (replies', t') ∧
      (∀ k, t'.db.row k = t.db.row k) ∧ t'.db.history.Perm t.db.history := by
  have hrun : (runAll Job.commit twinPayments twinTables).isSome := by decide +kernel
  obtain ⟨⟨replies, t⟩, ht⟩ := Option.isSome_iff_exists.mp hrun
  have hsame : ∀ w, programsAt Job.warehouse w twinPayments' = programsAt Job.warehouse w twinPayments := by
    intro w
    rcases eq_or_ne w 1 with rfl | h₁
    · rfl
    · rcases eq_or_ne w 2 with rfl | h₂
      · rfl
      · simp [programsAt, twinPayments, twinPayments', Job.warehouse, Job.home, Ne.symm h₁, Ne.symm h₂]
  have hlocal : ∀ e ∈ twinPayments, e.1.Local := by simp [twinPayments, Job.Local]
  obtain ⟨replies', t', ht', -, -, -, hrow, hhist⟩ := interleaving twinTables_sound hlocal hsame ht
  exact ⟨replies, t, replies', t', ht, ht', hrow, hhist⟩

end TpccBench
