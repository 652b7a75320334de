import TpccBench.Client.Answers
import TpccBench.Lib.Run
import TpccBench.Load.Letters

/-!
# A session never hits a missing row

On tables that were loaded with its parameters a client goes on as long as it likes, if its constants are
not negative and fit, and if the ids of the orders do: every call is answered, and leaves tables that serve
the client (`TpccBench.TPCCClient.session_serves`). The ids fit in every session that is not too long
(`TpccBench.TPCCClient.idsFit_of_length`).
-/

namespace TpccBench

open Prog

namespace TPCCClient

variable {F : Type} [Money F] (client : TPCCClient)

/-- **The ids of the orders fit** in a session: where a call is about to place an order. -/
def IdsFit (s : Load F) : List ClientCall → Prop := Run.Each fun done a =>
  ∀ answers s', client.session done s = some (answers, s') →
    ∀ r n, client.request a s'.drawn = some (r, n) → r.IdFits s'.tables

/-- What a client is answered: requests that it may make, each with its answer. -/
def Answered (answers : List (Request F × Option Bool)) : Prop :=
  ∀ e ∈ answers, client.Asks e.1 ∧ e.2 = e.1.answer

variable {client} {s : Load F}

section Constants

variable (hnum : client.numItems = Item.numItems) (hc : client.generator.cValues.NonNegative) (hfit : client.SumsFit)

include hnum hc hfit

/-- **A call is answered.** -/
theorem Serves.call (h : client.Serves s.tables) {a : ClientCall}
    (hid : ∀ r n, client.request a s.drawn = some (r, n) → r.IdFits s.tables) :
    ∃ (r : Request F) (s' : Load F), client.call a s = some ((r, r.answer), s') ∧ client.Asks r ∧
      client.GoesOn s.tables s'.tables := by
  have hyields := request_yields (F := F) hc hfit a
  obtain ⟨⟨r, n⟩, hrequest⟩ := Option.isSome_iff_exists.mp (hyields.ends trivial s.drawn)
  have hasks := hyields.result hrequest
  obtain ⟨t', hsend, hgoes⟩ := h.send hnum hasks (hid r n hrequest) a.h
  refine ⟨r, ⟨t', n⟩, ?_, hasks, hgoes⟩
  rw [TPCCClient.call, bind_apply, Rx.gen, hrequest, Option.map_some, Option.bind_some, bind_apply, Op.session, hsend]
  rfl

/-- **A session goes on**, call by call. -/
theorem Serves.session (h : client.Serves s.tables) {calls : List ClientCall} (hids : client.IdsFit s calls) :
    ∃ answers s', client.session calls s = some (answers, s') ∧ client.Serves s'.tables ∧ client.Answered answers ∧
      ∀ w d n, s.tables.db.NextOId w d n → ∃ n' ≤ n + calls.length, s'.tables.db.NextOId w d n' := by
  induction calls using List.reverseRecOn with
  | nil => exact ⟨[], s, rfl, h, fun e he => absurd he List.not_mem_nil, fun w d n hn => ⟨n, by simp, hn⟩⟩
  | append_singleton calls a ih =>
    obtain ⟨hids, hid⟩ := Run.each_snoc.mp hids
    obtain ⟨answers, s', hrun, hserves, hanswered, hnext⟩ := ih hids
    obtain ⟨r, s'', hcall, hasks, hgoes⟩ := hserves.call hnum hc hfit (hid answers s' hrun)
    have hlast : client.session (calls ++ [a]) s = some (answers ++ [(r, r.answer)], s'') := by
      rw [TPCCClient.session] at hrun ⊢
      rw [mapM_snoc_apply, hrun, Option.bind_some, hcall]
      rfl
    refine ⟨_, s'', hlast, hgoes.serves, ?_, fun w d n hn => ?_⟩
    · intro e he
      rcases List.mem_append.mp he with he | he
      · exact hanswered e he
      · obtain rfl := List.mem_singleton.mp he
        exact ⟨hasks, rfl⟩
    · obtain ⟨n', hle, hn'⟩ := hnext w d n hn
      obtain ⟨n'', hle', hn''⟩ := hgoes.nextOId hn'
      exact ⟨n'', by rw [List.length_append, List.length_singleton]; push_cast; omega, hn''⟩

/-- **The ids fit** in a session that is not too long. -/
theorem idsFit_of_length (h : client.Serves s.tables) {m : ℤ}
    (hnext : ∀ w d n, s.tables.db.NextOId w d n → n ≤ m) {calls : List ClientCall}
    (hlen : m + calls.length ≤ 143165) : client.IdsFit s calls := by
  induction calls using List.reverseRecOn with
  | nil => exact Run.each_nil
  | append_singleton calls a ih =>
    rw [List.length_append, List.length_singleton] at hlen
    push_cast at hlen
    have hids := ih (by omega)
    refine Run.each_snoc.mpr ⟨hids, fun answers s' hrun r n hrequest => ?_⟩
    obtain ⟨answers', s'', hrun', hserves, -, hgoes⟩ := h.session hnum hc hfit hids
    obtain ⟨-, rfl⟩ := Prod.mk.inj (Option.some.inj (hrun'.symm.trans hrun))
    have hasks := (request_yields (F := F) hc hfit a).result hrequest
    cases hasks with
    | @newOrder w d c items rollback now hw hd hcust hitems =>
      intro _ n' hn'
      -- the district has had a next id from the start
      obtain ⟨k, m₀, hp, -⟩ := (h.district hw hd).pipeline
      obtain ⟨m₁, hle, hm₁⟩ := hgoes w d m₀ hp.nextOId
      have heq := Option.some.inj (hm₁.symm.trans hn')
      have hm₀ := hnext w d m₀ hp.nextOId
      omega
    | _ => trivial

end Constants

variable {g : TPCCGenerator} {warehouses : ℕ} {t : Tables F}

/-- **A session never hits a missing row**: on tables that were loaded with the parameters of the client every call
is answered, and an order is refused exactly if it is marked for a rollback. -/
theorem session_serves (ht : g.Loads warehouses t) (hb : client.BuiltWith g warehouses)
    (hitems : g.numItems = Item.numItems) (hcust : 20 ≤ g.customersPerDistrict)
    (hc : client.generator.cValues.NonNegative) (hfit : client.SumsFit) (drawn : ℕ) {calls : List ClientCall}
    (hids : client.IdsFit ⟨t, drawn⟩ calls) :
    ∃ answers s, client.session calls ⟨t, drawn⟩ = some (answers, s) ∧ client.Serves s.tables ∧
      client.Answered answers := by
  obtain ⟨answers, s, hrun, hserves, hanswered, -⟩ := Serves.session (hb.numItems.symm.trans hitems) hc hfit
    (s := ⟨t, drawn⟩) (ht.serves hb hitems hcust) hids
  exact ⟨answers, s, hrun, hserves, hanswered⟩

/-- The next orders of loaded tables. -/
theorem nextOId_of_loads (ht : g.Loads warehouses t) {w d n : ℤ} (hn : t.db.NextOId w d n) :
    n = g.customersPerDistrict + 1 := by
  obtain ⟨-, x, hx, hdb⟩ := ht.exists_db
  rw [Db.NextOId, hdb] at hn
  obtain ⟨dist, hdist, rfl⟩ := Option.map_eq_some_iff.mp hn
  obtain ⟨⟨hw, hd⟩, hmade⟩ := Option.ite_none_right_eq_some.mp hdist
  obtain rfl := Option.some.inj hmade
  exact ((hx.at hw).at hd).nextOId

/-! ### One warehouse -/

/-- A hundred thousand items, and twenty customers in each district. -/
def twentyGenerator : TPCCGenerator :=
  { TPCCGenerator.cycling 0 100000 20 (by decide) (by decide) with random := .lettered 0 }

theorem ten_districts : 1 ≤ 10 ∧ 10 ≤ 10 := by decide

/-- A client that draws the greatest number each time. -/
def greatestClient (cValues : NURandC) : TPCCClient where
  generator :=
    { number := fun _ _ upper => upper
      cValues
      lower_le := fun _ _ _ h => h
      le_upper := fun _ _ _ _ => le_rfl }
  numItems := Item.numItems
  numWarehouses := 1
  districtsPerWarehouse := 10
  customersPerDistrict := 20
  remoteItemMilliP := 10
  boundWarehouse := 0
  boundDistrict := 0
  items_range := by decide
  warehouses_range := by decide
  districts_range := ten_districts
  customers_range := by decide
  remote_range := by decide
  boundWarehouse_range := by decide
  boundDistrict_range := by decide

theorem length_midnight : (List.replicate datetimeSize '0').length = datetimeSize := List.length_replicate

/-- A clock that stands. -/
def midnight : Timestamp := ⟨List.replicate datetimeSize '0', length_midnight⟩

/-- One call of each function. -/
def oneOfEach : List ClientCall :=
  [.doNewOrder, .doPayment, .doOrderStatus, .doDelivery, .doStockLevel].map fun function =>
    ⟨function, midnight, .asInserted⟩

theorem exists_twentyTables : ∃ t : Tables ℚ, twentyGenerator.Loads 1 t :=
  TPCCGenerator.exists_loads (by decide) (by decide) (by decide)

theorem greatestClient_builtWith (cValues : NURandC) : (greatestClient cValues).BuiltWith twentyGenerator 1 :=
  ⟨rfl, rfl, rfl, rfl⟩

/-- Constants that are zero fit. -/
theorem greatestClient_sumsFit : (greatestClient ⟨0, 0, 0⟩).SumsFit where
  cLast := RandomGenerator.sumsFit_of_le (c := 0) (e := 10) _ rfl (by decide) (by decide) (by decide)
  cId := RandomGenerator.sumsFit_of_le (c := 0) (e := 10) _ rfl (by decide) (by decide) (by decide)
  olIId := RandomGenerator.sumsFit_of_le (c := 0) (e := 17) _ rfl (by decide) (by decide) (by decide)

theorem session_serves_twenty : ∃ (t : Tables ℚ) (answers : List (Request ℚ × Option Bool)) (s : Load ℚ),
    twentyGenerator.Loads 1 t ∧ (greatestClient ⟨0, 0, 0⟩).session oneOfEach ⟨t, 0⟩ = some (answers, s) ∧
      (greatestClient ⟨0, 0, 0⟩).Serves s.tables ∧ (greatestClient ⟨0, 0, 0⟩).Answered answers := by
  obtain ⟨t, ht⟩ := exists_twentyTables
  have hb := greatestClient_builtWith ⟨0, 0, 0⟩
  have hc : (greatestClient ⟨0, 0, 0⟩).generator.cValues.NonNegative := ⟨le_rfl, le_rfl, le_rfl⟩
  have hids : (greatestClient ⟨0, 0, 0⟩).IdsFit ⟨t, 0⟩ oneOfEach :=
    idsFit_of_length rfl hc greatestClient_sumsFit (s := ⟨t, 0⟩) (ht.serves hb rfl (by decide)) (m := 21)
      (fun w d n hn => (nextOId_of_loads ht hn).le) (by decide)
  obtain ⟨answers, s, hrun, hserves, hanswered⟩ :=
    session_serves ht hb rfl (by decide) hc greatestClient_sumsFit 0 hids
  exact ⟨t, answers, s, ht, hrun, hserves, hanswered⟩

/-- **A constant that does not fit**: the client asks for the order status of a customer by id. -/
theorem session_not_serves : ¬∀ (g : TPCCGenerator) (warehouses : ℕ) (t : Tables ℚ) (client : TPCCClient),
    g.Loads warehouses t → client.BuiltWith g warehouses → g.numItems = Item.numItems → 20 ≤ g.customersPerDistrict →
      g.random.cValues.NonNegative → client.generator.cValues.NonNegative → ∀ drawn calls,
        client.IdsFit ⟨t, drawn⟩ calls → ∃ answers s, client.session calls ⟨t, drawn⟩ = some (answers, s) := by
  intro h
  obtain ⟨t, ht⟩ := exists_twentyTables
  let a : ClientCall := ⟨.doOrderStatus, midnight, .asInserted⟩
  have hnone : (greatestClient ⟨0, 2147483647, 0⟩).request (F := ℚ) a 0 = none := by rfl
  have hids : (greatestClient ⟨0, 2147483647, 0⟩).IdsFit (F := ℚ) ⟨t, 0⟩ [a] := by
    refine Run.each_snoc (l := []).mpr ⟨Run.each_nil, fun answers s hrun r n hrequest => ?_⟩
    obtain ⟨-, rfl⟩ := Prod.mk.inj (Option.some.inj hrun)
    rw [hnone] at hrequest
    exact absurd hrequest (Option.some_ne_none _).symm
  obtain ⟨answers, s, hrun⟩ := h _ _ t _ ht (greatestClient_builtWith ⟨0, 2147483647, 0⟩) rfl (by decide)
    ⟨le_rfl, le_rfl, le_rfl⟩ ⟨le_rfl, by decide, le_rfl⟩ 0 [a] hids
  have hcall : (greatestClient ⟨0, 2147483647, 0⟩).call a ⟨t, 0⟩ = none := by
    rw [TPCCClient.call, bind_apply, Rx.gen, hnone]
    rfl
  rw [session, List.mapM_cons, bind_apply, hcall] at hrun
  exact absurd hrun (Option.some_ne_none _).symm

end TPCCClient

end TpccBench
