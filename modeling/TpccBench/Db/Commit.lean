import TpccBench.Db.Refinement
import TpccBench.Lib.Triple

/-!
# Committed transactions on the database

What a client sees of a transaction is what it returns (`TpccBench.Reply`), and what a
committed transaction does is said on the database, with what it replies
(`TpccBench.Txn.OnDb`). A payment by last name is a payment by the id of the customer that is
found, and a buffer that is allocated and freed makes no difference
(`TpccBench.Txn.commit_onDb`).
-/

namespace TpccBench

open Prog

variable {F : Type}

/-! ### The database does not depend on the shape of the tables -/

theorem Tables.db_of_contents {t t' : Tables F} (h : t.contents = t'.contents) : t.db = t'.db := by
  have hstore : t.store = t'.store := congrArg Contents.store h
  have hitems : t.items = t'.items := congrArg Contents.items h
  have hhist : t.history = t'.history := congrArg Contents.history h
  simp only [db, lookup, hstore, hitems, hhist]

theorem Tables.db_congr {t t' : Tables F} (hs : t.store = t'.store) (hr : t.rest = t'.rest) : t.db = t'.db :=
  db_of_contents (contents_eq hs hr)

theorem Tables.Sound.of_contents {t t' : Tables F} (ht : t.Sound) (h : t'.contents = t.contents) : t'.Sound where
  toWellFormed := ht.toWellFormed.congr h
  named p hp := by
    have hstore : t'.store = t.store := congrArg Contents.store h
    have hname : t'.customersByName = t.customersByName := congrArg Contents.customersByName h
    rw [hstore]
    exact ht.named p (hname ▸ hp)

theorem Tables.Sound.congr {t t' : Tables F} (h : t.Sound) (hs : t.store = t'.store)
    (hr : t.rest = t'.rest) : t'.Sound :=
  h.of_contents (Tables.contents_eq hs hr).symm

/-- **Committing** does to the database what the transaction does to it, whether or not
there was a buffer. -/
theorem Refines.commit {α : Type} {x : Tx F α} {y : Dx F α} (h : Refines x y) (hj : x.Journaled)
    {t : Tables F} (ht : t.Sound) (free : Option HashOrder) :
    Option.Rel (fun r r' => r.1 = r'.1 ∧ r.2.Sound ∧ r.2.db = r'.2) (x.commit free t) (y t.db) := by
  have hnull : Option.Rel (fun r r' => r.1 = r'.1 ∧ r.2.Sound ∧ r.2.db = r'.2) (x.commit none t)
      (y t.db) := by
    have hrel := h ⟨t, none⟩ t.db ⟨rfl, ht, rfl, trivial⟩
    rw [Tx.commit]
    generalize x ⟨t, none⟩ = r at hrel
    generalize y t.db = r' at hrel
    cases hrel with
    | none => exact Option.Rel.none
    | some hr => exact Option.Rel.some ⟨hr.1, hr.2.2.1, hr.2.2.2.1⟩
  cases free with
  | none => exact hnull
  | some h =>
    have hrel := hj.commit ht.linked h
    generalize x.commit (some h) t = r at hrel
    generalize x.commit none t = r₁ at hrel hnull
    generalize y t.db = r' at hnull
    cases hrel with
    | none => exact hnull
    | some hr =>
      cases hnull with
      | some hr' =>
        refine Option.Rel.some ⟨hr.1.trans hr'.1, hr'.2.1.congr hr.2.1.symm hr.2.2.symm, ?_⟩
        exact (Tables.db_congr hr.2.1 hr.2.2).trans hr'.2.2

/-! ### Replies -/

/-- What a transaction returns, in another form. -/
theorem Tx.commit_map {α β : Type} (x : Tx F α) (f : α → β) (free : Option HashOrder) (t : Tables F) :
    Tx.commit free (x >>= fun a => pure (f a)) t = (x.commit free t).map fun r => (f r.1, r.2) := by
  cases free with
  | none =>
    simp only [Tx.commit, bind_apply]
    cases x ⟨t, none⟩ <;> rfl
  | some o =>
    simp only [Tx.commit, bind_apply]
    cases x ⟨t, some none⟩ with
    | none => rfl
    | some r =>
      simp only [Option.bind_some, pure_apply]
      cases r.2.buffer with
      | none => rfl
      | some u =>
        dsimp only
        rw [Option.map_map]
        rfl

/-- What a transaction returns. -/
inductive Reply (F : Type)
  | newOrder (result : Bool) (output : NewOrderOutput F)
  | quantities (quantities : Option (List ℤ))
  | payment (output : PaymentOutput F)
  | delivery (orders : List DeliveryOrderInfo)

/-- The object in which a committed order is reported. -/
def Reply.reported : Reply F → Option (NewOrderOutput F)
  | newOrder true output => some output
  | _ => none

theorem Reply.reported_eq_some {r : Reply F} {output : NewOrderOutput F} :
    r.reported = some output ↔ r = .newOrder true output := by
  rcases r with ⟨_ | _, _⟩ | _ | _ | _ <;> simp [reported]

/-- The answer true, where there is one. -/
def Reply.committed : Reply F → Bool
  | newOrder result _ => result
  | quantities q => q.isSome
  | payment _ => true
  | delivery _ => true

variable [Money F]

/-- Execute a transaction. -/
def Txn.reply : Txn F → Tx F (Reply F)
  | newOrder h w d c items now output => do
    let r ← Tx.newOrder h w d c items now output
    return .newOrder r.1 r.2
  | newOrderHome w d c items now output => do
    let r ← Tx.newOrderHome w d c items now output
    return .newOrder r.1 r.2
  | newOrderRemote home remote items => do
    return .quantities (← Tx.newOrderRemote home remote items)
  | payment w d cW cD c hAmount now => do return .payment (← Tx.payment w d cW cD c hAmount now)
  | paymentByName w d cW cD cLast hAmount now => do
    return .payment (← Tx.paymentByName w d cW cD cLast hAmount now)
  | paymentHome w d cW cD c hAmount now => do
    return .payment (← Tx.paymentHome w d cW cD c hAmount now)
  | paymentRemote w d cW cD c hAmount output => do
    return .payment (← Tx.paymentRemote w d cW cD c hAmount output)
  | paymentRemoteByName w d cW cD cLast hAmount output => do
    return .payment (← Tx.paymentRemoteByName w d cW cD cLast hAmount output)
  | delivery w carrierId now => do return .delivery (← Tx.delivery w carrierId now)

omit [Money F] in
theorem Keeps.map {α β : Type} {t₀ : Tables F} {X Y : TPCCUndo F → Tables F → Prop} {x : Tx F α}
    (h : Keeps t₀ X Y x) (f : α → β) : Keeps t₀ X Y (x >>= fun a => pure (f a)) :=
  Sim.bind_eq h fun _ => Sim.pure fun _ _ hc => ⟨rfl, hc⟩

theorem Txn.reply_keeps (t₀ : Tables F) (x : Txn F) : Keeps t₀ x.Undoable Any x.reply := by
  cases x with
  | newOrder h w d c items now output => exact (newOrder_keeps h w d c items now output).map _
  | newOrderHome w d c items now output => exact (newOrderHome_keeps w d c items now output).map _
  | newOrderRemote home remote items => exact (newOrderRemote_keeps Any.stable home remote items).map _
  | payment w d cW cD c hAmount now => exact (payment_keeps w d cW cD c hAmount now).map _
  | paymentByName w d cW cD cLast hAmount now =>
    exact (paymentByName_keeps w d cW cD cLast hAmount now).map _
  | paymentHome w d cW cD c hAmount now =>
    exact Keeps.map ((paymentHome_keeps w d cW cD c hAmount now).post
      fun _ _ _ _ h => ⟨h.1, h.2.toOpen⟩) _
  | paymentRemote w d cW cD c hAmount output =>
    exact (paymentRemote_keeps w d cW cD c hAmount output).map _
  | paymentRemoteByName w d cW cD cLast hAmount output =>
    exact (paymentRemoteByName_keeps w d cW cD cLast hAmount output).map _
  | delivery w carrierId now => exact (delivery_keeps w carrierId now).map _

theorem Txn.reply_journaled (x : Txn F) : x.reply.Journaled := by
  refine Keeps.journaled (fun t => x.reply_keeps t) fun t => ?_
  cases x with
  | delivery => exact fun _ _ _ _ => List.not_mem_nil
  | _ => exact trivial

/-! ### Payments by name -/

omit [Money F] in
/-- **The customer that is found by name** is the one with some id. -/
theorem findCustomerByName_of_sound {t t' : Tables F} (ht : t.Sound) {w d : ℤ} {cLast : List Char}
    {p : Option Ptr} (h : Op.findCustomerByName w d cLast t = some (p, t')) :
    t = t' ∧ ∃ q, ∃ cust : Customer F, p = some q ∧ t.store.cell .customer q = some cust ∧
      t.lookup .customer (w, d, cust.cId) = some q := by
  have hsame : t = t' := by
    have hrel := Query.findCustomerByName (F := F) w d cLast t t ⟨rfl, fun _ _ => rfl, rfl, rfl⟩
    rw [h] at hrel
    cases hrel with
    | some hr => exact hr.2.1.symm
  refine ⟨hsame, ?_⟩
  rw [Op.findCustomerByName] at h
  obtain ⟨_, t₁, h₁, h⟩ := bind_eq_some h
  obtain ⟨-, rfl⟩ := assert_eq_some h₁
  obtain ⟨l, t₂, h₂, h⟩ := bind_eq_some h
  obtain ⟨l', hl, heq⟩ := Option.map_eq_some_iff.mp h₂
  obtain ⟨rfl, rfl⟩ := Prod.mk.inj heq
  obtain ⟨_, t₃, h₃, h⟩ := bind_eq_some h
  obtain ⟨-, rfl⟩ := assert_eq_some h₃
  obtain ⟨_, t₄, h₄, h⟩ := bind_eq_some h
  obtain ⟨-, rfl⟩ := assert_eq_some h₄
  obtain ⟨middle, t₅, -, h⟩ := bind_eq_some h
  obtain ⟨_, t₆, h₆, h⟩ := bind_eq_some h
  obtain ⟨⟨e, he, hw, hd, -⟩, rfl⟩ := assert_eq_some h₆
  obtain ⟨rfl, -⟩ := Prod.mk.inj (Option.some.inj h)
  -- the entry is one of the customers in name order
  have hmem : e ∈ l' := List.mem_of_mem_drop (List.mem_of_mem_take (List.mem_of_getElem? he))
  obtain ⟨q, hq, heq⟩ := exists_of_mem_mapM hl hmem
  obtain ⟨cust, hcust, rfl⟩ := Option.map_eq_some_iff.mp heq
  refine ⟨q, cust, by rw [he]; rfl, hcust, ?_⟩
  obtain ⟨key, hkey⟩ := ht.named q hq
  obtain ⟨ls, ⟨cust', hcust', hls⟩, hl', hall⟩ := ht.linked (.tree .customers, key) q hkey
  obtain rfl := Option.some.inj (hcust.symm.trans hcust')
  obtain ⟨l₀, hl₀, hprim⟩ := primary_mem (k := .customer) (by simp) hls
  obtain ⟨rfl, rfl⟩ : cust.cWId = w ∧ cust.cDId = d := ⟨hw, hd⟩
  exact (Tables.lookup_of_primary (k := .customer) hprim).trans (hall l₀ hl₀)

omit [Money F] in
/-- Finding by name is finding by id. -/
theorem findCustomer_of_byName {t : Tables F} (ht : t.Sound) {w d : ℤ} {cLast : List Char}
    {p : Option Ptr} {c : Call F} (h : (Op.findCustomerByName w d cLast).tx ⟨t, none⟩ = some (p, c)) :
    c = ⟨t, none⟩ ∧ ∃ cust : Customer F, (Op.deref .customer p).tx ⟨t, none⟩ = some (cust, ⟨t, none⟩) ∧
      (Op.findCustomer w d cust.cId).tx ⟨t, none⟩ = some (p, (⟨t, none⟩ : Call F)) := by
  rw [Op.tx_apply] at h
  obtain ⟨⟨p', t₁⟩, hfind, heq⟩ := Option.map_eq_some_iff.mp h
  obtain ⟨rfl, rfl⟩ := Prod.mk.inj heq
  obtain ⟨hsame, q, cust, hq, hcust, hlook⟩ := findCustomerByName_of_sound ht hfind
  subst hsame
  have hq : p' = some q := hq
  subst hq
  refine ⟨rfl, cust, ?_, ?_⟩
  · rw [Op.tx_apply, Op.deref_apply, hcust]
    rfl
  · rw [Op.tx_apply, (Shows.findCustomer_finds w d cust.cId).of_lookup hlook]
    rfl

/-- A payment by name is a payment by id. -/
theorem paymentByName_of_sound {t : Tables F} (ht : t.Sound) {w d cW cD : ℤ} {cLast : List Char}
    {hAmount : F} {now : List Char} {r : PaymentOutput F × Call F}
    (h : Tx.paymentByName w d cW cD cLast hAmount now ⟨t, none⟩ = some r) :
    ∃ c, Tx.payment w d cW cD c hAmount now ⟨t, none⟩ = some r := by
  rw [Tx.paymentByName] at h
  obtain ⟨p, c₁, hfind, h⟩ := bind_eq_some h
  obtain ⟨rfl, cust, hread, hfind'⟩ := findCustomer_of_byName ht hfind
  rw [bind_apply, hread, Option.bind_some] at h
  refine ⟨cust.cId, ?_⟩
  rw [Tx.payment, bind_apply, hfind', Option.bind_some]
  exact h

/-- A remote payment by name is one by id. -/
theorem paymentRemoteByName_of_sound {t : Tables F} (ht : t.Sound) {w d cW cD : ℤ}
    {cLast : List Char} {hAmount : F} {output : PaymentOutput F} {r : PaymentOutput F × Call F}
    (h : Tx.paymentRemoteByName w d cW cD cLast hAmount output ⟨t, none⟩ = some r) :
    ∃ c, Tx.paymentRemote w d cW cD c hAmount output ⟨t, none⟩ = some r := by
  rw [Tx.paymentRemoteByName] at h
  obtain ⟨p, c₁, hfind, h⟩ := bind_eq_some h
  obtain ⟨rfl, cust, -, hfind'⟩ := findCustomer_of_byName ht hfind
  refine ⟨cust.cId, ?_⟩
  rw [Tx.paymentRemote, bind_apply, hfind', Option.bind_some]
  exact h

/-! ### Transactions on the database -/

/-- **What a transaction is on the database.** By name, any of the customers may be meant. -/
inductive Txn.OnDb : Txn F → Dx F (Reply F) → Prop
  | newOrder (h w d c items now output) : OnDb (.newOrder h w d c items now output) do
      let r ← Db.newOrder h w d c items now output
      return .newOrder r.1 r.2
  | newOrderHome (w d c items now output) : OnDb (.newOrderHome w d c items now output) do
      let r ← Db.newOrderHome w d c items now output
      return .newOrder r.1 r.2
  | newOrderRemote (home remote items) : OnDb (.newOrderRemote home remote items) do
      return .quantities (← Db.newOrderRemote home remote items)
  | payment (w d cW cD c hAmount now) : OnDb (.payment w d cW cD c hAmount now) do
      return .payment (← Db.payment w d cW cD c hAmount now)
  | paymentByName (w d cW cD c cLast hAmount now) : OnDb (.paymentByName w d cW cD cLast hAmount now) do
      return .payment (← Db.payment w d cW cD c hAmount now)
  | paymentHome (w d cW cD c hAmount now) : OnDb (.paymentHome w d cW cD c hAmount now) do
      return .payment (← Db.paymentHome w d cW cD c hAmount now)
  | paymentRemote (w d cW cD c hAmount output) : OnDb (.paymentRemote w d cW cD c hAmount output) do
      return .payment (← Db.paymentRemote w d cW cD c hAmount output)
  | paymentRemoteByName (w d cW cD c cLast hAmount output) :
    OnDb (.paymentRemoteByName w d cW cD cLast hAmount output) do
      return .payment (← Db.paymentRemote w d cW cD c hAmount output)
  | delivery (w carrierId now) : OnDb (.delivery w carrierId now) do
      return .delivery (← Db.delivery w carrierId now)

omit [Money F] in
theorem Refines.map {α β : Type} {x : Tx F α} {y : Dx F α} (h : Refines x y) (f : α → β) :
    Refines (x >>= fun a => pure (f a)) (y >>= fun a => pure (f a)) :=
  Sim.bind_eq h fun _ => Sim.pure fun _ _ hc => ⟨rfl, hc⟩

/-- **Every transaction refines one on the database**, or the run of one that does. -/
theorem Txn.exists_onDb {t : Tables F} (ht : t.Sound) (x : Txn F) {r : Reply F × Call F}
    (h : x.reply ⟨t, none⟩ = some r) :
    ∃ x' y, Refines x' y ∧ x.OnDb y ∧ x' ⟨t, none⟩ = some r := by
  cases x with
  | newOrder o w d c items now output =>
    exact ⟨_, _, (newOrder_refines o w d c items now output).map _, .newOrder .., h⟩
  | newOrderHome w d c items now output =>
    exact ⟨_, _, (newOrderHome_refines w d c items now output).map _, .newOrderHome .., h⟩
  | newOrderRemote home remote items =>
    exact ⟨_, _, (newOrderRemote_refines home remote items).map _, .newOrderRemote .., h⟩
  | payment w d cW cD c hAmount now =>
    exact ⟨_, _, (payment_refines w d cW cD c hAmount now).map _, .payment .., h⟩
  | paymentByName w d cW cD cLast hAmount now =>
    obtain ⟨out, c, hpay, hret⟩ := bind_eq_some h
    obtain ⟨cId, hpay⟩ := paymentByName_of_sound ht hpay
    refine ⟨_, _, (payment_refines w d cW cD cId hAmount now).map _, .paymentByName .., ?_⟩
    rw [bind_apply, hpay]
    exact hret
  | paymentHome w d cW cD c hAmount now =>
    exact ⟨_, _, Refines.map (paymentHome_refines (E := fun _ => True) w d cW cD c hAmount now) _,
      .paymentHome .., h⟩
  | paymentRemote w d cW cD c hAmount output =>
    exact ⟨_, _, (paymentRemote_refines w d cW cD c hAmount output).map _, .paymentRemote .., h⟩
  | paymentRemoteByName w d cW cD cLast hAmount output =>
    obtain ⟨out, c, hpay, hret⟩ := bind_eq_some h
    obtain ⟨cId, hpay⟩ := paymentRemoteByName_of_sound ht hpay
    refine ⟨_, _, (paymentRemote_refines w d cW cD cId hAmount output).map _,
      .paymentRemoteByName .., ?_⟩
    rw [bind_apply, hpay]
    exact hret
  | delivery w carrierId now =>
    exact ⟨_, _, (delivery_refines w carrierId now).map _, .delivery .., h⟩

/-- **A committed transaction**, on the database. -/
theorem Txn.commit_onDb {t t' : Tables F} (ht : t.Sound) {x : Txn F} {free : Option HashOrder}
    {r : Reply F} (h : x.reply.commit free t = some (r, t')) :
    t'.Sound ∧ ∃ y, x.OnDb y ∧ y t.db = some (r, t'.db) := by
  -- with a null `undo` first
  have hnull : ∀ r t', x.reply.commit none t = some (r, t') →
      t'.Sound ∧ ∃ y, x.OnDb y ∧ y t.db = some (r, t'.db) := by
    intro r t' h
    obtain ⟨⟨r', c⟩, hrun, heq⟩ := Option.map_eq_some_iff.mp h
    obtain ⟨rfl, rfl⟩ := Prod.mk.inj heq
    obtain ⟨x', y, href, hon, hrun'⟩ := x.exists_onDb ht hrun
    have hrel := href ⟨t, none⟩ t.db ⟨rfl, ht, rfl, trivial⟩
    rw [hrun'] at hrel
    cases hy : y t.db with
    | none =>
      rw [hy] at hrel
      nomatch hrel
    | some r'' =>
      rw [hy] at hrel
      cases hrel with
      | some hr =>
        obtain ⟨rfl, -, hs, hdb, -⟩ := hr
        refine ⟨hs, y, hon, hy.trans ?_⟩
        rw [hdb]
  cases free with
  | none => exact hnull r t' h
  | some o =>
    have hrel := x.reply_journaled.commit ht.linked o
    rw [h] at hrel
    cases hnone : x.reply.commit none t with
    | none =>
      rw [hnone] at hrel
      nomatch hrel
    | some r' =>
      rw [hnone] at hrel
      cases hrel with
      | some hr =>
        obtain ⟨r', t₁⟩ := r'
        obtain ⟨rfl, hs, hrest⟩ : r = r' ∧ t'.store = t₁.store ∧ t'.rest = t₁.rest := hr
        obtain ⟨hsound, y, hon, hy⟩ := hnull r t₁ hnone
        refine ⟨hsound.congr hs.symm hrest.symm, y, hon, ?_⟩
        rw [hy, Tables.db_congr hs hrest]

end TpccBench
