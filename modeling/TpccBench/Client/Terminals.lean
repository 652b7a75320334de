import TpccBench.Client.Session
import TpccBench.Lib.Interleave

/-!
# Terminals

Several clients share the tables, and each of them draws numbers of its own. Their calls come in any order.
As long as the ids of the orders fit, every call is answered (`TpccBench.terminals_serve`), and what the calls
did to the tables is a run of committed transactions, the ones that the clients have asked for
(`TpccBench.requests_commit`). So whatever such a run keeps is kept by the terminals.
-/

namespace TpccBench

open Prog

variable {F : Type}

/-! ### Reading -/

/-- An operation that changes nothing. -/
def Op.Reads {α : Type} (x : Op F α) : Prop := ∀ (t t' : Tables F) (a : α), x t = some (a, t') → t' = t

namespace Op.Reads

variable {α β ι : Type}

theorem bind {x : Op F α} {f : α → Op F β} (hx : x.Reads) (hf : ∀ a, (f a).Reads) : Op.Reads (x >>= f) := by
  intro t t' b h
  obtain ⟨a, t₁, hrun, h⟩ := bind_eq_some h
  exact (hf a t₁ t' b h).trans (hx t t₁ a hrun)

theorem pure (a : α) : Op.Reads (F := F) (Pure.pure a) := by
  intro t t' b h
  exact (Prod.mk.inj (Option.some.inj h)).2.symm

theorem assert (p : Prop) [Decidable p] : Op.Reads (F := F) (Prog.assert p) := fun _ _ _ h => (assert_eq_some h).2.symm

theorem lift (o : Option α) : Op.Reads (F := F) (liftM o) := fun _ _ _ h => (lift_eq_some h).2.symm

theorem mapM {f : ι → Op F α} (h : ∀ i, (f i).Reads) (l : List ι) : Op.Reads (l.mapM f) := by
  induction l with
  | nil => exact pure []
  | cons i l ih =>
    rw [List.mapM_cons]
    exact (h i).bind fun a => ih.bind fun as => pure _

theorem forM {f : ι → Op F Unit} (h : ∀ i, (f i).Reads) (l : List ι) : Op.Reads (l.forM f) := by
  induction l with
  | nil => exact pure ()
  | cons i l ih => exact (h i).bind fun _ => ih

theorem foldlM {f : β → ι → Op F β} (h : ∀ b i, (f b i).Reads) (l : List ι) (b : β) : Op.Reads (l.foldlM f b) := by
  induction l generalizing b with
  | nil => exact pure b
  | cons i l ih =>
    rw [List.foldlM_cons]
    exact (h b i).bind ih

theorem findIn (n : TreeName) (key : ℤ) : (Op.findIn (F := F) n key).Reads := fun _ _ _ h =>
  (Prod.mk.inj (Option.some.inj h)).2.symm

theorem deref (k : Kind) (p : Option Ptr) : (Op.deref (F := F) k p).Reads := by
  intro t t' r h
  obtain ⟨_, -, h⟩ := Option.bind_eq_some_iff.mp h
  obtain ⟨_, -, h⟩ := Option.map_eq_some_iff.mp h
  exact (Prod.mk.inj h).2.symm

theorem byName : (Op.byName (F := F)).Reads := by
  intro t t' l h
  obtain ⟨_, -, h⟩ := Option.map_eq_some_iff.mp h
  exact (Prod.mk.inj h).2.symm

theorem findLastLessThan (n : TreeName) (key : ℤ) (value : Option Ptr) :
    (Op.findLastLessThan (F := F) n key value).Reads := by
  intro t t' r h
  obtain ⟨_, -, h⟩ := Option.map_eq_some_iff.mp h
  exact (Prod.mk.inj h).2.symm

theorem findOrderLine (w d o n : ℤ) : (Op.findOrderLine (F := F) w d o n).Reads :=
  (lift _).bind fun _ => findIn _ _

theorem findLastOrderByCustomer (w d c : ℤ) : (Op.findLastOrderByCustomer (F := F) w d c).Reads := by
  refine (lift _).bind fun key => (assert _).bind fun _ => (findLastLessThan _ _ _).bind fun r => ?_
  obtain ⟨found, order⟩ := r
  cases found with
  | false => exact pure order
  | true => exact (deref _ _).bind fun o => (assert _).bind fun _ => pure order

theorem internalOrderStatus (p : Option Ptr) : (Op.internalOrderStatus (F := F) p).Reads := by
  refine (deref _ _).bind fun c => (findLastOrderByCustomer _ _ _).bind fun order => (deref _ _).bind fun o => ?_
  refine (assert _).bind fun _ => (mapM (fun i => ?_) _).bind fun lines => (forM (fun n => ?_) _).bind fun _ => pure _
  · exact (findOrderLine _ _ _ _).bind fun line => (deref _ _).bind fun l => pure _
  · exact (findOrderLine _ _ _ _).bind fun line => assert _

theorem findCustomerByName (w d : ℤ) (cLast : List Char) : (Op.findCustomerByName (F := F) w d cLast).Reads := by
  refine (assert _).bind fun _ => byName.bind fun l => (assert _).bind fun _ => (assert _).bind fun _ => ?_
  exact (foldlM (fun r e => (assert _).bind fun _ => pure _) _ _).bind fun middle => (assert _).bind fun _ => pure _

theorem orderStatus (w d : ℤ) (who : CustomerChoice) : (who.orderStatus (F := F) w d).Reads := by
  cases who with
  | id c => exact ((lift _).bind fun key => findIn _ _).bind fun p => internalOrderStatus p
  | lastName cLast => exact (findCustomerByName _ _ _).bind fun p => internalOrderStatus p

theorem stockLevelLines (w d threshold o : ℤ) (ns : List ℕ) :
    (Op.stockLevelLines (F := F) w d threshold o ns).Reads := by
  induction ns with
  | nil => exact pure []
  | cons n ns ih =>
    refine (findOrderLine _ _ _ _).bind fun line => ?_
    cases line with
    | none => exact (forM (fun _ => (findOrderLine _ _ _ _).bind fun line => assert _) _).bind fun _ => pure []
    | some line =>
      refine (deref _ _).bind fun l => ((lift _).bind fun key => findIn _ _).bind fun stock => (deref _ _).bind fun s => ?_
      exact ih.bind fun ids => pure _

theorem stockLevel (w d threshold : ℤ) : (Op.stockLevel (F := F) w d threshold).Reads := by
  refine ((lift _).bind fun key => findIn _ _).bind fun p => (deref _ _).bind fun dist => ?_
  exact (mapM (fun i => stockLevelLines _ _ _ _ _) _).bind fun ids => pure _

end Op.Reads

/-! ### What a request commits -/

/-- The district that a request would place an order in. -/
def Request.district : Request F → Option (ℤ × ℤ)
  | newOrder w d .. => some (w, d)
  | _ => none

variable [Money F]

/-- The transaction that a request commits, if it is not only read. -/
def Request.txn (h : HashOrder) : Request F → Option (Txn F)
  | stockLevel .. => none
  | orderStatus .. => none
  | delivery w carrier now => some (.delivery w carrier now.val)
  | payment w d cW cD (.id c) hAmount now => some (.payment w d cW cD c hAmount now.val)
  | payment w d cW cD (.lastName cLast) hAmount now => some (.paymentByName w d cW cD cLast hAmount now.val)
  | newOrder w d c items _ now => some (.newOrder h w d c items now.val .new)

/-- It is committed without a buffer. -/
def Request.calls (h : HashOrder) (r : Request F) : List (Txn F × Option HashOrder) :=
  (r.txn h).toList.map fun x => (x, none)

variable {t t' t'' : Tables F} {w d : ℤ}

theorem commitAll_append {calls calls' : List (Txn F × Option HashOrder)} {replies replies' : List (Reply F)}
    (h : commitAll calls t = some (replies, t')) (h' : commitAll calls' t' = some (replies', t'')) :
    commitAll (calls ++ calls') t = some (replies ++ replies', t'') := by
  rw [commitAll] at h h' ⊢
  rw [List.mapM_append, bind_apply, h, Option.bind_some, bind_apply, h']
  rfl

omit [Money F] in
theorem placedAll_append {calls calls' : List (Txn F × Option HashOrder)} {replies replies' : List (Reply F)}
    (hlen : calls.length = replies.length) : placedAll w d (calls ++ calls') (replies ++ replies') =
      placedAll w d calls replies + placedAll w d calls' replies' := by
  rw [placedAll, List.zip_append hlen, List.countP_append, placedAll, placedAll]

theorem commitAll_length {calls : List (Txn F × Option HashOrder)} {replies : List (Reply F)}
    (h : commitAll calls t = some (replies, t')) : calls.length = replies.length :=
  (runAll_length h).symm

/-- One call. -/
theorem commitAll_singleton {x : Txn F} {r : Reply F} (h : x.reply.commit none t = some (r, t')) :
    commitAll [(x, none)] t = some ([r], t') := by
  rw [commitAll, List.mapM_cons, bind_apply, h]
  rfl

/-- **A request that is answered** has committed its transaction, and what it is told is whether an order was
placed. -/
theorem Request.send_commits {r : Request F} {h : HashOrder} {b : Option Bool} (hs : r.send h t = some (b, t')) :
    ∃ replies, commitAll (r.calls h) t = some (replies, t') ∧
      ∀ w d, placedAll w d (r.calls h) replies = if r.district = some (w, d) ∧ b = some true then 1 else 0 := by
  cases r with
  | stockLevel w d threshold =>
    obtain ⟨result, t₁, hread, hs⟩ := bind_eq_some hs
    obtain ⟨_, t₂, hassert, hs⟩ := bind_eq_some hs
    obtain ⟨-, rfl⟩ := assert_eq_some hassert
    obtain ⟨rfl, rfl⟩ := Prod.mk.inj (Option.some.inj hs)
    obtain rfl := Op.Reads.stockLevel w d threshold _ _ _ hread
    exact ⟨[], rfl, fun w d => (if_neg (by simp)).symm⟩
  | orderStatus w d who =>
    obtain ⟨result, t₁, hread, hs⟩ := bind_eq_some hs
    obtain ⟨rfl, rfl⟩ := Prod.mk.inj (Option.some.inj hs)
    obtain rfl := Op.Reads.orderStatus w d who _ _ _ hread
    exact ⟨[], rfl, fun w d => (if_neg (by simp)).symm⟩
  | delivery w carrier now =>
    obtain ⟨orders, t₁, hrun, hs⟩ := bind_eq_some hs
    obtain ⟨rfl, rfl⟩ := Prod.mk.inj (Option.some.inj hs)
    have hcommit : (Txn.delivery w carrier now.val).reply.commit none t = some (.delivery orders, t₁) := by
      rw [Txn.reply, Tx.commit_map, hrun]
      rfl
    exact ⟨_, commitAll_singleton hcommit, fun w d => (if_neg (by simp)).symm⟩
  | payment w d cW cD who hAmount now =>
    obtain ⟨out, t₁, hrun, hs⟩ := bind_eq_some hs
    obtain ⟨rfl, rfl⟩ := Prod.mk.inj (Option.some.inj hs)
    cases who with
    | id c =>
      have hcommit : (Txn.payment w d cW cD c hAmount now.val).reply.commit none t = some (.payment out, t₁) := by
        rw [Txn.reply, Tx.commit_map]
        exact (congrArg _ hrun).trans rfl
      exact ⟨_, commitAll_singleton hcommit, fun w d => (if_neg (by simp)).symm⟩
    | lastName cLast =>
      have hcommit : (Txn.paymentByName w d cW cD cLast hAmount now.val).reply.commit none t =
          some (.payment out, t₁) := by
        rw [Txn.reply, Tx.commit_map]
        exact (congrArg _ hrun).trans rfl
      exact ⟨_, commitAll_singleton hcommit, fun w d => (if_neg (by simp)).symm⟩
  | newOrder w d c items rollback now =>
    obtain ⟨⟨result, out⟩, t₁, hrun, hs⟩ := bind_eq_some hs
    obtain ⟨_, t₂, hassert, hs⟩ := bind_eq_some hs
    obtain ⟨-, rfl⟩ := assert_eq_some hassert
    obtain ⟨rfl, rfl⟩ := Prod.mk.inj (Option.some.inj hs)
    have hcommit : (Txn.newOrder h w d c items now.val .new).reply.commit none t = some (.newOrder result out, t₁) := by
      rw [Txn.reply, Tx.commit_map, hrun]
      rfl
    refine ⟨_, commitAll_singleton hcommit, fun w' d' => ?_⟩
    cases result <;> simp [placedAll, Request.calls, Request.txn, Request.district, Txn.home, Reply.committed,
      List.countP_cons]

/-! ### Terminals -/

variable {ι : Type} [DecidableEq ι]

/-- The tables, and how many numbers each of the clients has drawn. -/
structure Terminals (ι F : Type) where
  tables : Tables F
  drawn : ι → ℕ

/-- **A call of one of the clients.** -/
def Terminals.call (clients : ι → TPCCClient) (e : ι × ClientCall) : Prog (Terminals ι F) (Request F × Option Bool) :=
  fun s => ((clients e.1).call e.2 ⟨s.tables, s.drawn e.1⟩).map fun r =>
    (r.1, ⟨r.2.tables, Function.update s.drawn e.1 r.2.drawn⟩)

/-- **Sessions that are interleaved.** -/
def Terminals.run (clients : ι → TPCCClient) (calls : List (ι × ClientCall)) :
    Prog (Terminals ι F) (List (Request F × Option Bool)) := calls.mapM (Terminals.call clients)

/-- What the calls have committed. -/
def committed (calls : List (ι × ClientCall)) (answers : List (Request F × Option Bool)) :
    List (Txn F × Option HashOrder) := (calls.zip answers).flatMap fun e => e.2.1.calls e.1.2.h

/-- The orders that the clients were told to be placed in a district. -/
def ordersTold (w d : ℤ) (answers : List (Request F × Option Bool)) : ℕ :=
  answers.countP fun e => e.1.district = some (w, d) ∧ e.2 = some true

/-- **The ids of the orders fit**, where a call is about to place one. -/
def Terminals.IdsFit (clients : ι → TPCCClient) (s : Terminals ι F) : List (ι × ClientCall) → Prop :=
  Run.Each fun done e => ∀ answers s', Terminals.run clients done s = some (answers, s') →
    ∀ r n, (clients e.1).request e.2 (s'.drawn e.1) = some (r, n) → r.IdFits s'.tables

variable {clients : ι → TPCCClient} {s s' : Terminals ι F} {calls : List (ι × ClientCall)}
  {answers : List (Request F × Option Bool)}

omit [Money F] [DecidableEq ι] in
theorem ordersTold_snoc {e : Request F × Option Bool} : ordersTold w d (answers ++ [e]) =
    ordersTold w d answers + if e.1.district = some (w, d) ∧ e.2 = some true then 1 else 0 := by
  rw [ordersTold, List.countP_append]
  simp [ordersTold, List.countP_cons]

/-- What a call has done to the tables. -/
theorem Terminals.call_eq_some {e : ι × ClientCall} {answer : Request F × Option Bool}
    (h : Terminals.call clients e s = some (answer, s')) :
    answer.1.send e.2.h s.tables = some (answer.2, s'.tables) := by
  obtain ⟨⟨a, s₁⟩, hcall, heq⟩ := Option.map_eq_some_iff.mp h
  obtain ⟨rfl, rfl⟩ := Prod.mk.inj heq
  -- what it asks for is drawn first, and is sent then
  obtain ⟨r, s₂, hrequest, hcall⟩ := bind_eq_some hcall
  obtain ⟨⟨r', n⟩, -, heq⟩ := Option.map_eq_some_iff.mp hrequest
  obtain ⟨rfl, rfl⟩ := Prod.mk.inj heq
  obtain ⟨b, s₃, hsession, hret⟩ := bind_eq_some hcall
  obtain ⟨rfl, rfl⟩ := Prod.mk.inj (Option.some.inj hret)
  obtain ⟨⟨b', t₃⟩, hsend, heq⟩ := Option.map_eq_some_iff.mp hsession
  obtain ⟨rfl, rfl⟩ := Prod.mk.inj heq
  exact hsend

/-- **What the terminals have done to the tables** is a run of committed transactions, and they have placed the
orders that the clients were told of. -/
theorem requests_commit (h : Terminals.run clients calls s = some (answers, s')) :
    ∃ replies, commitAll (committed calls answers) s.tables = some (replies, s'.tables) ∧
      ∀ w d, placedAll w d (committed calls answers) replies = ordersTold w d answers := by
  induction calls using List.reverseRecOn generalizing answers s' with
  | nil =>
    obtain ⟨rfl, rfl⟩ := Prod.mk.inj (Option.some.inj h)
    exact ⟨[], rfl, fun w d => rfl⟩
  | append_singleton calls e ih =>
    rw [Terminals.run, mapM_snoc_apply] at h
    obtain ⟨⟨answers₁, s₁⟩, hrun, h⟩ := Option.bind_eq_some_iff.mp h
    obtain ⟨⟨answer, s₂⟩, hcall, heq⟩ := Option.map_eq_some_iff.mp h
    obtain ⟨rfl, rfl⟩ := Prod.mk.inj heq
    have hlen : calls.length = answers₁.length := (runAll_length hrun).symm
    obtain ⟨replies, hreplies, hplaced⟩ := ih hrun
    obtain ⟨replies', hreplies', hplaced'⟩ := Request.send_commits (Terminals.call_eq_some hcall)
    have hcommitted : committed (calls ++ [e]) (answers₁ ++ [answer]) =
        committed calls answers₁ ++ answer.1.calls e.2.h := by
      rw [committed, List.zip_append hlen, List.flatMap_append]
      simp [committed]
    rw [hcommitted]
    refine ⟨replies ++ replies', commitAll_append hreplies hreplies', fun w d => ?_⟩
    rw [placedAll_append (commitAll_length hreplies), hplaced, hplaced', ordersTold_snoc]

/-! ### They are served -/

namespace TPCCClient

omit [Money F] in
/-- Clients that are built with the same parameters are served by the same tables. -/
theorem Serves.of_builtWith {client client' : TPCCClient} {g : TPCCGenerator} {warehouses : ℕ}
    (h : client.Serves t) (hb : client.BuiltWith g warehouses) (hb' : client'.BuiltWith g warehouses) :
    client'.Serves t := by
  have hitems : client'.numItems = client.numItems := hb'.numItems.symm.trans hb.numItems
  have hwarehouses : client'.numWarehouses = client.numWarehouses := hb'.numWarehouses.symm.trans hb.numWarehouses
  have hdistricts : client'.districtsPerWarehouse = client.districtsPerWarehouse :=
    hb'.districtsPerWarehouse.symm.trans hb.districtsPerWarehouse
  have hcustomers : client'.customersPerDistrict = client.customersPerDistrict :=
    hb'.customersPerDistrict.symm.trans hb.customersPerDistrict
  refine ⟨h.sound, h.items.trans hitems.symm, ?_, ?_, fun w => h.orderly w, ?_, ?_⟩
  · intro w hw
    exact h.warehouse (hwarehouses ▸ hw)
  · intro w i hw hi
    exact h.stock (hwarehouses ▸ hw) (hitems ▸ hi)
  · intro w d hw hd
    have hdist := h.district (hwarehouses ▸ hw) (hdistricts ▸ hd)
    refine ⟨hdist.pipeline, fun hc => hdist.customer (hcustomers ▸ hc), hdist.owns, hdist.count, ?_⟩
    intro o order horder line hline
    rw [hitems]
    exact hdist.item horder line hline
  · intro w d who hw hd hwho
    refine h.chooses (hwarehouses ▸ hw) (hdistricts ▸ hd) ?_
    cases hwho with
    | id hc => exact .id (hcustomers ▸ hc)
    | lastName hlow hhigh hname => exact .lastName hlow (hcustomers ▸ hhigh) hname

end TPCCClient

/-- **A client that can be served**: it is built with the parameters of a load, and its constants fit. -/
structure TPCCClient.Servable (client : TPCCClient) (g : TPCCGenerator) (warehouses : ℕ) : Prop where
  builtWith : client.BuiltWith g warehouses
  nonNegative : client.generator.cValues.NonNegative
  sumsFit : client.SumsFit

/-- What the clients are answered: requests that they may make, each with its answer. -/
def Terminals.Answered (clients : ι → TPCCClient) (calls : List (ι × ClientCall))
    (answers : List (Request F × Option Bool)) : Prop :=
  calls.length = answers.length ∧ ∀ e ∈ calls.zip answers, (clients e.1.1).Asks e.2.1 ∧ e.2.2 = e.2.1.answer

variable {g : TPCCGenerator} {warehouses : ℕ}

/-- **A call of one of the clients** is answered, and all of them are served after it. -/
theorem Terminals.call_serves (hclients : ∀ i, (clients i).Servable g warehouses) (hitems : g.numItems = Item.numItems)
    (hserves : ∀ i, (clients i).Serves s.tables) {e : ι × ClientCall}
    (hid : ∀ r n, (clients e.1).request e.2 (s.drawn e.1) = some (r, n) → r.IdFits s.tables) :
    ∃ (r : Request F) (s' : Terminals ι F), Terminals.call clients e s = some ((r, r.answer), s') ∧
      (clients e.1).Asks r ∧ ∀ i, (clients i).Serves s'.tables := by
  have hclient := hclients e.1
  obtain ⟨r, s₁, hcall, hasks, hgoes⟩ := TPCCClient.Serves.call (hclient.builtWith.numItems.symm.trans hitems)
    hclient.nonNegative hclient.sumsFit (s := ⟨s.tables, s.drawn e.1⟩) (hserves e.1) hid
  refine ⟨r, ⟨s₁.tables, Function.update s.drawn e.1 s₁.drawn⟩, ?_, hasks, ?_⟩
  · rw [Terminals.call, hcall]
    rfl
  · intro i
    exact hgoes.serves.of_builtWith hclient.builtWith (hclients i).builtWith

/-- **Sessions that are interleaved** go on, call by call. -/
theorem Terminals.run_serves (hclients : ∀ i, (clients i).Servable g warehouses) (hitems : g.numItems = Item.numItems)
    (hserves : ∀ i, (clients i).Serves s.tables) (hids : s.IdsFit clients calls) :
    ∃ answers s', Terminals.run clients calls s = some (answers, s') ∧
      Terminals.Answered clients calls answers ∧ ∀ i, (clients i).Serves s'.tables := by
  induction calls using List.reverseRecOn with
  | nil => exact ⟨[], s, rfl, ⟨rfl, fun e he => absurd he List.not_mem_nil⟩, hserves⟩
  | append_singleton calls e ih =>
    obtain ⟨hids, hid⟩ := Run.each_snoc.mp hids
    obtain ⟨answers, s', hrun, ⟨hlen, hanswered⟩, hserves'⟩ := ih hids
    obtain ⟨r, s'', hcall, hasks, hserves''⟩ :=
      Terminals.call_serves hclients hitems hserves' (hid answers s' hrun)
    refine ⟨answers ++ [(r, r.answer)], s'', ?_, ⟨?_, ?_⟩, hserves''⟩
    · rw [Terminals.run] at hrun ⊢
      rw [mapM_snoc_apply, hrun, Option.bind_some, hcall]
      rfl
    · rw [List.length_append, List.length_append, hlen, List.length_singleton, List.length_singleton]
    · intro e' he'
      rw [List.zip_append hlen] at he'
      rcases List.mem_append.mp he' with he' | he'
      · exact hanswered e' he'
      · obtain rfl := List.mem_singleton.mp he'
        exact ⟨hasks, rfl⟩

/-- **The ids that are given out**: as many as orders the clients were told to be placed. -/
theorem Terminals.nextOId_of_run {t : Tables F} (ht : g.Loads warehouses t) {drawn : ι → ℕ}
    (hrun : Terminals.run clients calls ⟨t, drawn⟩ = some (answers, s')) (hw : w ∈ idsTo warehouses)
    (hd : d ∈ idsTo g.districtsPerWarehouse) :
    s'.tables.db.NextOId w d (g.customersPerDistrict + 1 + ordersTold w d answers) := by
  obtain ⟨replies, hreplies, hplaced⟩ := requests_commit hrun
  obtain ⟨hs, x, hx, hdb⟩ := ht.exists_db
  have hp := hx.pipeline hw hd
  rw [← hdb] at hp
  have hn := hp.nextOId
  rw [TPCCClient.nextOId_of_loads ht hn] at hn
  rw [← hplaced w d]
  exact TpccBench.nextOId_of_run hs hn hreplies

/-- **The ids fit** in sessions that are not too long together. -/
theorem Terminals.idsFit_of_length {t : Tables F} (ht : g.Loads warehouses t) (hclients : ∀ i, (clients i).Servable g warehouses)
    (drawn : ι → ℕ) (hlen : (g.customersPerDistrict : ℤ) + 1 + calls.length ≤ 143165) :
    Terminals.IdsFit clients ⟨t, drawn⟩ calls := by
  induction calls using List.reverseRecOn with
  | nil => exact Run.each_nil
  | append_singleton calls e ih =>
    rw [List.length_append, List.length_singleton] at hlen
    push_cast at hlen
    refine Run.each_snoc.mpr ⟨ih (by omega), ?_⟩
    intro answers s' hrun r n hrequest
    have hclient := hclients e.1
    have hasks := (TPCCClient.request_yields (F := F) hclient.nonNegative hclient.sumsFit e.2).result hrequest
    cases hasks with
    | @newOrder w d c items rollback now hw hd _ _ =>
      intro _ n' hn'
      rw [← hclient.builtWith.numWarehouses] at hw
      rw [← hclient.builtWith.districtsPerWarehouse] at hd
      obtain rfl := Option.some.inj (hn'.symm.trans (Terminals.nextOId_of_run ht hrun hw hd))
      have htold : ordersTold w d answers ≤ answers.length := List.countP_le_length
      have hanswers : answers.length = calls.length := runAll_length hrun
      omega
    | _ => trivial

/-- **Terminals are served**, in whatever order their calls come in: every call is answered, what they have done to the
tables is a run of the transactions that they asked for, and a district has given out as many ids as orders
the clients were told to be placed there. -/
theorem terminals_serve {t : Tables F} (ht : g.Loads warehouses t) (hitems : g.numItems = Item.numItems)
    (hcust : 20 ≤ g.customersPerDistrict) (hclients : ∀ i, (clients i).Servable g warehouses) (drawn : ι → ℕ)
    (hids : Terminals.IdsFit clients ⟨t, drawn⟩ calls) :
    ∃ answers s replies, Terminals.run clients calls ⟨t, drawn⟩ = some (answers, s) ∧
      Terminals.Answered clients calls answers ∧ (∀ i, (clients i).Serves s.tables) ∧
      commitAll (committed calls answers) t = some (replies, s.tables) ∧
      ∀ w d, w ∈ idsTo warehouses → d ∈ idsTo g.districtsPerWarehouse →
        s.tables.db.NextOId w d (g.customersPerDistrict + 1 + ordersTold w d answers) := by
  have hserves : ∀ i, (clients i).Serves t := by
    intro i
    exact ht.serves (hclients i).builtWith hitems hcust
  obtain ⟨answers, s, hrun, hanswered, hserves'⟩ :=
    Terminals.run_serves hclients hitems (s := ⟨t, drawn⟩) hserves hids
  obtain ⟨replies, hreplies, -⟩ := requests_commit hrun
  refine ⟨answers, s, replies, hrun, hanswered, hserves', hreplies, ?_⟩
  intro w d hw hd
  exact Terminals.nextOId_of_run ht hrun hw hd

/-- Each call of one terminal is followed by one of the other. -/
def pairOfCalls : List (Bool × ClientCall) := TPCCClient.oneOfEach.flatMap fun a => [(true, a), (false, a)]

/-- Two terminals take turns. -/
theorem terminals_serve_pair :
    ∃ (t : Tables ℚ) (answers : List (Request ℚ × Option Bool)) (s : Terminals Bool ℚ) (replies : List (Reply ℚ)),
      TPCCClient.twentyGenerator.Loads 1 t ∧
        Terminals.run (fun _ => TPCCClient.greatestClient ⟨0, 0, 0⟩) pairOfCalls ⟨t, fun _ => 0⟩ = some (answers, s) ∧
        commitAll (committed pairOfCalls answers) t = some (replies, s.tables) := by
  obtain ⟨t, ht⟩ := TPCCClient.exists_twentyTables
  have hclients : ∀ i : Bool, ((fun _ => TPCCClient.greatestClient ⟨0, 0, 0⟩ : Bool → TPCCClient) i).Servable
      TPCCClient.twentyGenerator 1 := by
    intro i
    exact ⟨TPCCClient.greatestClient_builtWith _, ⟨le_rfl, le_rfl, le_rfl⟩, TPCCClient.greatestClient_sumsFit⟩
  have hids : Terminals.IdsFit (fun _ => TPCCClient.greatestClient ⟨0, 0, 0⟩) ⟨t, fun _ => 0⟩ pairOfCalls :=
    Terminals.idsFit_of_length ht hclients (fun _ => 0) (by decide)
  obtain ⟨answers, s, replies, hrun, -, -, hreplies, -⟩ :=
    terminals_serve ht rfl (by decide) hclients (fun _ => 0) hids
  exact ⟨t, answers, s, replies, ht, hrun, hreplies⟩

end TpccBench
