import TpccBench.Client.Audit
import TpccBench.Load.NonUniform
import TpccBench.Program.Arguments

/-!
# The program

`main` reads its argument, loads the tables, draws constants for the run and lets a client do its transactions.
What comes from outside is a value here (`TpccBench.World`): the answers of the two generators, what the clock shows,
and the orders in which the hash tables of an order are gone through. The loops that draw until something
fits have so many tries.

Once the argument is accepted, the program ends exactly if the load does and if constants for the run are found, as
long as the ids of the orders fit; and the tables that it leaves are consistent (`TpccBench.main_ends`).
-/

namespace TpccBench

open Prog

/-- What the program is given from outside. -/
structure World where
  loadRandom : RandomGenerator
  runRandom : RandomGenerator
  clock : ℕ → Tm
  order : ℕ → HashOrder

/-- `setC`. -/
def RandomGenerator.setC (random : RandomGenerator) (c : NURandC) : RandomGenerator := { random with cValues := c }

/-- `NUM_TRANSACTIONS`. -/
def numTransactions : ℕ := 200000

/-- What the clock writes. -/
def timestamp (tm : Tm) : Option Timestamp := do
  let now ← getDateTimestamp tm
  if h : now.length = datetimeSize then return ⟨now, h⟩ else none

theorem full_districts : 1 ≤ 10 ∧ 10 ≤ 10 := by decide

theorem full_newOrders : 1 ≤ 900 ∧ 900 ≤ 900 := by decide

theorem full_newOrders_le : 900 ≤ 3000 := by decide

theorem default_remote : (0 : ℤ) ≤ 10 ∧ (10 : ℤ) ≤ 1000 := by decide

theorem unbound_range (n : ℕ) : (0 : ℤ) ≤ 0 ∧ (0 : ℤ) ≤ n := by omega

theorem unbound_districts : (0 : ℤ) ≤ 0 ∧ (0 : ℤ) ≤ (10 : ℕ) := unbound_range 10

/-- The generator of the program. -/
def TPCCGenerator.ofMain (random : RandomGenerator) (now : Timestamp) : TPCCGenerator where
  random := random
  now := ⟨now.val, Nat.le_of_eq now.property⟩
  numItems := Item.numItems
  districtsPerWarehouse := 10
  customersPerDistrict := 3000
  newOrdersPerDistrict := 900
  now_length := now.property
  items_range := full_items
  districts_range := full_districts
  customers_range := full_customers
  newOrders_range := full_newOrders
  newOrders_le := full_newOrders_le

/-- The client of the program. -/
def TPCCClient.ofMain (generator : RandomGenerator) (numWarehouses : ℕ)
    (h : 1 ≤ numWarehouses ∧ numWarehouses ≤ 100) : TPCCClient where
  generator := generator
  numItems := Item.numItems
  numWarehouses := numWarehouses
  districtsPerWarehouse := 10
  customersPerDistrict := 3000
  remoteItemMilliP := 10
  boundWarehouse := 0
  boundDistrict := 0
  items_range := full_items
  warehouses_range := h
  districts_range := full_districts
  customers_range := full_customers
  remote_range := default_remote
  boundWarehouse_range := unbound_range numWarehouses
  boundDistrict_range := unbound_districts

namespace World

variable {F : Type} [Money F] (world : World) (tries numWarehouses : ℕ)

/-- **The load**: the constants that it draws, and the tables. -/
def loadTables : Option (NURandC × Tables F) := do
  let (cLoad, drawn) ← NURandC.makeRandom world.loadRandom 0
  let now ← timestamp (world.clock 0)
  let (_, l) ← (TPCCGenerator.ofMain (world.loadRandom.setC cLoad) now).load tries numWarehouses ⟨Tables.empty, drawn⟩
  return (cLoad, l.tables)

/-- What the clock writes for the transactions. -/
def timestamps : Option (List Timestamp) := (List.range numTransactions).mapM fun i => timestamp (world.clock (i + 1))

/-- The calls of the client. -/
def calls (nows : List Timestamp) : List ClientCall := nows.zipIdx.map fun e => ⟨.doOne, e.1, world.order e.2⟩

/-- **The run** on loaded tables: what the client is answered, and the tables that it leaves. -/
def runClient (h : 1 ≤ numWarehouses ∧ numWarehouses ≤ 100) (cLoad : NURandC) (t : Tables F) :
    Option (List (Request F × Option Bool) × Tables F) := do
  let (c, drawn) ← NURandC.makeRandomForRun world.runRandom tries cLoad 0
  let nows ← world.timestamps
  let (answers, s) ← (TPCCClient.ofMain (world.runRandom.setC c) numWarehouses h).session (world.calls nows) ⟨t, drawn⟩
  return (answers, s.tables)

/-- `main`: what it prints before it exits, or what becomes of the run. -/
def main (argv : List String) : Except String (Option (List (Request F × Option Bool) × Tables F)) :=
  (parseArguments argv).map fun numWarehouses =>
    if h : 1 ≤ numWarehouses.toNat ∧ numWarehouses.toNat ≤ 100 then do
      let (cLoad, t) ← world.loadTables tries numWarehouses.toNat
      world.runClient tries numWarehouses.toNat h cLoad t
    else none

/-- **The ids of the orders fit**, if it comes to a run. -/
def IdsFit (F : Type) [Money F] : Prop :=
  ∀ (h : 1 ≤ numWarehouses ∧ numWarehouses ≤ 100) (cLoad c : NURandC) (t : Tables F) (drawn : ℕ)
    (nows : List Timestamp), world.loadTables tries numWarehouses = some (cLoad, t) →
      NURandC.makeRandomForRun world.runRandom tries cLoad 0 = some (c, drawn) → world.timestamps = some nows →
        (TPCCClient.ofMain (world.runRandom.setC c) numWarehouses h).IdsFit ⟨t, drawn⟩ (world.calls nows)

end World

/-! ### What is made of the parameters -/

/-- The clock writes for a proper time. -/
theorem Tm.Proper.timestamp {tm : Tm} (h : tm.Proper) : (timestamp tm).isSome := by
  obtain ⟨now, hnow⟩ := Option.isSome_iff_exists.mp (getDateTimestamp_isSome_iff.mpr h.fits)
  have hlength : now.length = datetimeSize := by
    obtain ⟨-, rfl⟩ := timestamp_record h.nonNegative hnow
    rw [List.length_map, Numeral.length_record (by rw [List.length_map]; rfl)]
    rfl
  rw [TpccBench.timestamp, hnow, Option.bind_eq_bind, Option.bind_some, dif_pos hlength]
  rfl

/-- The constants that are drawn are not negative, and fit. -/
theorem NURandC.Drawn.servable {c : NURandC} (hc : c.Drawn) (random loadRandom : RandomGenerator) (now : Timestamp)
    {numWarehouses : ℕ} (h : 1 ≤ numWarehouses ∧ numWarehouses ≤ 100) :
    (TPCCClient.ofMain (random.setC c) numWarehouses h).Servable (TPCCGenerator.ofMain loadRandom now)
      numWarehouses where
  builtWith := ⟨rfl, rfl, rfl, rfl⟩
  nonNegative := ⟨hc.cLast.1, hc.cId.1, hc.olIId.1⟩
  sumsFit := by
    obtain ⟨⟨-, hLast⟩, ⟨-, hId⟩, -, hItem⟩ := hc
    refine ⟨?_, ?_, ?_⟩
    · exact RandomGenerator.sumsFit_of_le (c := c.cLast) (e := 10) _ rfl (by norm_num) (by omega) (by omega)
    · exact RandomGenerator.sumsFit_of_le (c := c.cId) (e := 12) _ rfl (by norm_num) (by norm_num [TPCCClient.ofMain])
        (by omega)
    · exact RandomGenerator.sumsFit_of_le (c := c.olIId) (e := 17) _ rfl (by norm_num)
        (by norm_num [TPCCClient.ofMain, Item.numItems]) (by omega)

section Sessions

variable {F : Type} [Money F] {client : TPCCClient}

/-- A client alone is a terminal. -/
theorem TPCCClient.session_terminals {calls : List ClientCall} {t : Tables F} {n : ℕ}
    {answers : List (Request F × Option Bool)} {s : Load F} (h : client.session calls ⟨t, n⟩ = some (answers, s)) :
    Terminals.run (fun _ : Unit => client) (calls.map fun a => ((), a)) ⟨t, fun _ => n⟩ =
      some (answers, ⟨s.tables, fun _ => s.drawn⟩) := by
  induction calls using List.reverseRecOn generalizing answers s with
  | nil =>
    obtain ⟨rfl, rfl⟩ := Prod.mk.inj (Option.some.inj h)
    rfl
  | append_singleton calls a ih =>
    rw [session, mapM_snoc_apply] at h
    obtain ⟨⟨answers₁, s₁⟩, hrun, h⟩ := Option.bind_eq_some_iff.mp h
    obtain ⟨⟨answer, s₂⟩, hcall, heq⟩ := Option.map_eq_some_iff.mp h
    obtain ⟨rfl, rfl⟩ := Prod.mk.inj heq
    have hstep : Terminals.call (fun _ : Unit => client) ((), a) ⟨s₁.tables, fun _ => s₁.drawn⟩ =
        some (answer, ⟨s₂.tables, fun _ => s₂.drawn⟩) := by
      rw [Terminals.call, hcall, Option.map_some]
      refine congrArg (fun drawn => some (answer, (⟨s₂.tables, drawn⟩ : Terminals Unit F))) (funext fun u => ?_)
      exact Function.update_self u _ _
    have hfront := ih hrun
    rw [Terminals.run] at hfront ⊢
    rw [List.map_append, List.map_singleton, mapM_snoc_apply, hfront, Option.bind_some, hstep]
    rfl

/-- What a call has asked for. -/
theorem TPCCClient.request_of_call {a : ClientCall} {s s' : Load F} {e : Request F × Option Bool}
    (h : client.call a s = some (e, s')) : client.request a s.drawn = some (e.1, s'.drawn) := by
  obtain ⟨r, s₁, hrequest, h⟩ := bind_eq_some h
  obtain ⟨result, s₂, hsend, h⟩ := bind_eq_some h
  obtain ⟨rfl, rfl⟩ := Prod.mk.inj (Option.some.inj h)
  obtain ⟨⟨r', n⟩, hr, heq⟩ := Option.map_eq_some_iff.mp hrequest
  obtain ⟨rfl, rfl⟩ := Prod.mk.inj heq
  obtain ⟨r₂, -, heq⟩ := Option.map_eq_some_iff.mp hsend
  obtain ⟨rfl, rfl⟩ := Prod.mk.inj heq
  exact hr

end Sessions

/-! ### The program ends -/

section Ends

variable {world : World} {tries numWarehouses : ℕ} {w : ℤ} {argv : List String}

/-- The clock writes for all transactions. -/
theorem World.exists_timestamps (hclock : ∀ i, (world.clock i).Proper) :
    ∃ nows, world.timestamps = some nows ∧ nows.length = numTransactions := by
  have hsome := mapM_eq_filterMap (l := List.range numTransactions) fun i _ => (hclock (i + 1)).timestamp
  refine ⟨_, hsome, ?_⟩
  rw [← (forall₂_of_mapM hsome).length_eq, List.length_range]

theorem World.length_calls {nows : List Timestamp} : (world.calls nows).length = nows.length := by
  rw [World.calls, List.length_map, List.length_zipIdx]

variable {F : Type} [Money F]

/-- What a load has loaded, and its constants. -/
theorem World.loadTables_eq_some {cLoad : NURandC} {t : Tables F}
    (h : world.loadTables tries numWarehouses = some (cLoad, t)) :
    cLoad.Drawn ∧ ∃ now, (TPCCGenerator.ofMain (world.loadRandom.setC cLoad) now).Loads numWarehouses t := by
  rw [World.loadTables, Option.bind_eq_bind, Option.bind_eq_some_iff] at h
  obtain ⟨⟨c, drawn⟩, hconstants, h⟩ := h
  obtain ⟨now, -, h⟩ := Option.bind_eq_some_iff.mp h
  obtain ⟨⟨_, l⟩, hload, h⟩ := Option.bind_eq_some_iff.mp h
  obtain ⟨rfl, rfl⟩ := Prod.mk.inj (Option.some.inj h)
  exact ⟨NURandC.makeRandom_drawn _ hconstants, now, tries, drawn, l, hload, rfl⟩

/-- **A run ends** once its constants are found: every call of the client is answered. -/
theorem World.runClient_of_load (hclock : ∀ i, (world.clock i).Proper) (hids : world.IdsFit tries numWarehouses F)
    (h : 1 ≤ numWarehouses ∧ numWarehouses ≤ 100) {cLoad c : NURandC} {t : Tables F} {drawn : ℕ}
    (hload : world.loadTables tries numWarehouses = some (cLoad, t))
    (hconstants : NURandC.makeRandomForRun world.runRandom tries cLoad 0 = some (c, drawn)) :
    ∃ answers t' nows, world.runClient tries numWarehouses h cLoad t = some (answers, t') ∧
      world.timestamps = some nows ∧ nows.length = numTransactions ∧
      ∃ n', Terminals.run (fun _ : Unit => TPCCClient.ofMain (world.runRandom.setC c) numWarehouses h)
          ((world.calls nows).map fun a => ((), a)) ⟨t, fun _ => drawn⟩ = some (answers, ⟨t', fun _ => n'⟩) ∧
        (TPCCClient.ofMain (world.runRandom.setC c) numWarehouses h).Answered answers := by
  obtain ⟨nows, hnows, hlength⟩ := World.exists_timestamps hclock
  obtain ⟨-, now, ht⟩ := World.loadTables_eq_some hload
  have hclient := (NURandC.makeRandomForRun_drawn _ hconstants).servable world.runRandom
    (world.loadRandom.setC cLoad) now h
  obtain ⟨answers, s, hrun, -, hanswered, -⟩ := TPCCClient.Serves.session rfl hclient.nonNegative hclient.sumsFit
    (s := ⟨t, drawn⟩) (ht.serves hclient.builtWith rfl (show 20 ≤ 3000 by decide)) (hids h cLoad c t drawn nows hload hconstants hnows)
  refine ⟨answers, s.tables, nows, ?_, hnows, hlength, s.drawn, TPCCClient.session_terminals hrun, hanswered⟩
  rw [World.runClient, hconstants, Option.bind_eq_bind, Option.bind_some]
  dsimp only
  rw [hnows, Option.bind_eq_bind, Option.bind_some, hrun]
  rfl

/-- Constants for a run are found exactly if one of those that are drawn is valid. -/
theorem NURandC.makeRandomForRun_isSome_iff {generator : RandomGenerator} {n : ℕ} {cLoad : NURandC} :
    (NURandC.makeRandomForRun generator tries cLoad n).isSome ↔
      ∃ k ≤ tries, NURandC.validCRun (NURandC.candidate generator n k) cLoad.cLast := by
  rw [Option.isSome_iff_exists]
  constructor
  · rintro ⟨⟨c, n'⟩, h⟩
    obtain ⟨k, hk, hvalid, -⟩ := (NURandC.makeRandomForRun_eq_some generator).mp h
    exact ⟨k, hk, hvalid⟩
  · intro h
    -- the first of them
    obtain ⟨hk, hvalid⟩ := Nat.find_spec h
    refine ⟨_, (NURandC.makeRandomForRun_eq_some generator).mpr ⟨Nat.find h, hk, hvalid, ?_, rfl, rfl⟩⟩
    intro j hj hvalid'
    exact Nat.find_min h hj ⟨hj.le.trans hk, hvalid'⟩

/-- What a run leaves. -/
theorem World.runClient_leaves (hclock : ∀ i, (world.clock i).Proper) (hids : world.IdsFit tries numWarehouses ℚ)
    (h : 1 ≤ numWarehouses ∧ numWarehouses ≤ 100) {cLoad : NURandC} {t : Tables ℚ}
    (hload : world.loadTables tries numWarehouses = some (cLoad, t)) {answers : List (Request ℚ × Option Bool)}
    {t' : Tables ℚ} (hrun : world.runClient tries numWarehouses h cLoad t = some (answers, t')) :
    answers.length = numTransactions ∧ (∀ e ∈ answers, e.2 = e.1.answer) ∧
      ∀ w ∈ idsTo numWarehouses, ∀ d ∈ idsTo 10, t'.db.OrdersConsistent w d ∧ t'.db.MoneyConsistent w d ∧
        t'.db.NextOId w d (3001 + ordersTold w d answers) := by
  obtain ⟨⟨c, drawn⟩, hconstants, -⟩ := Option.bind_eq_some_iff.mp hrun
  obtain ⟨answers', t'', nows, hrun', -, hlength, n', hterminals, hanswered⟩ :=
    World.runClient_of_load hclock hids h hload hconstants
  obtain ⟨rfl, rfl⟩ := Prod.mk.inj (Option.some.inj (hrun'.symm.trans hrun))
  obtain ⟨-, now, ht⟩ := World.loadTables_eq_some hload
  have hcalls : answers'.length = (world.calls nows).length := by
    rw [runAll_length hterminals, List.length_map]
  refine ⟨by rw [hcalls, World.length_calls, hlength], fun e he => (hanswered e he).2, ?_⟩
  intro w hw d hd
  obtain ⟨replies, hreplies, -⟩ := requests_commit hterminals
  have hall : Terminals.Answered (fun _ : Unit => TPCCClient.ofMain (world.runRandom.setC c) numWarehouses h)
      ((world.calls nows).map fun a => ((), a)) answers' := by
    refine ⟨by rw [List.length_map, hcalls], ?_⟩
    intro e he
    exact hanswered e.2 (List.of_mem_zip he).2
  obtain ⟨horders, hmoney⟩ := ht.consistent_of_run rfl rfl hall.committed hreplies hw hd
  exact ⟨horders, hmoney, Terminals.nextOId_of_run ht hterminals hw hd⟩

/-- What `main` does once its argument is accepted. -/
theorem World.main_of_accepted (hargs : parseArguments argv = .ok w) (h : 1 ≤ w.toNat ∧ w.toNat ≤ 100) :
    world.main (F := F) tries argv = .ok ((world.loadTables tries w.toNat).bind fun e =>
      world.runClient tries w.toNat h e.1 e.2) := by
  rw [World.main, hargs]
  exact congrArg Except.ok (dif_pos h)

/-- **The program ends.** With exact amounts, once its argument is accepted, and as long as the ids of the orders
fit: it ends exactly if the load does and if a valid constant for the run is drawn in time. Then all its transactions
have been answered, and every district of every warehouse is consistent. -/
theorem main_ends (hargs : parseArguments argv = .ok w) (hclock : ∀ i, (world.clock i).Proper)
    (hids : world.IdsFit tries w.toNat ℚ) :
    ∃ result : Option (List (Request ℚ × Option Bool) × Tables ℚ), world.main tries argv = .ok result ∧
      (result.isSome ↔ ∃ (cLoad : NURandC) (t : Tables ℚ), world.loadTables tries w.toNat = some (cLoad, t) ∧
        ∃ k ≤ tries, NURandC.validCRun (NURandC.candidate world.runRandom 0 k) cLoad.cLast) ∧
      ∀ answers t', result = some (answers, t') → answers.length = numTransactions ∧ (∀ e ∈ answers, e.2 = e.1.answer) ∧
        ∀ w' ∈ idsTo w.toNat, ∀ d ∈ idsTo 10, t'.db.OrdersConsistent w' d ∧ t'.db.MoneyConsistent w' d ∧
          t'.db.NextOId w' d (3001 + ordersTold w' d answers) := by
  obtain ⟨program, arg, -, -, hpos, hle⟩ := parseArguments_eq_ok.mp hargs
  have h : 1 ≤ w.toNat ∧ w.toNat ≤ 100 := by
    rw [Warehouse.maxWarehouseId] at hle
    omega
  refine ⟨_, World.main_of_accepted hargs h, ?_, ?_⟩
  · constructor
    · intro hsome
      obtain ⟨⟨answers, t'⟩, hresult⟩ := Option.isSome_iff_exists.mp hsome
      obtain ⟨⟨cLoad, t⟩, hload, hrun⟩ := Option.bind_eq_some_iff.mp hresult
      obtain ⟨⟨c, drawn⟩, hconstants, -⟩ := Option.bind_eq_some_iff.mp hrun
      exact ⟨cLoad, t, hload, NURandC.makeRandomForRun_isSome_iff.mp (Option.isSome_of_eq_some hconstants)⟩
    · rintro ⟨cLoad, t, hload, hvalid⟩
      obtain ⟨⟨c, drawn⟩, hconstants⟩ :=
        Option.isSome_iff_exists.mp (NURandC.makeRandomForRun_isSome_iff.mpr hvalid)
      obtain ⟨answers, t', nows, hrun, -⟩ := World.runClient_of_load hclock hids h hload hconstants
      rw [hload, Option.bind_some, hrun]
      rfl
  · intro answers t' hresult
    obtain ⟨⟨cLoad, t⟩, hload, hrun⟩ := Option.bind_eq_some_iff.mp hresult
    exact World.runClient_leaves hclock hids h hload hrun

end Ends

/-! ### A quiet run -/

/-- The smallest answer each time, but for the constant for last names and for the first numbers out of a hundred. -/
def quiet : RandomGenerator where
  number n lower upper :=
    if lower = 0 ∧ upper = 255 then 100 else if lower = 1 ∧ upper = 100 ∧ n < 7 then 100 else lower
  cValues := ⟨0, 0, 0⟩
  lower_le _ {lower upper} _ := by
    split
    · omega
    · split <;> omega
  le_upper _ {lower upper} h := by
    split
    · omega
    · split <;> omega

/-- A client that places an order, and then only asks for stock levels. -/
def quietWorld : World where
  loadRandom := .lettered 0
  runRandom := quiet
  clock _ := ⟨100, 0, 1, 0, 0, 0⟩
  order _ := .asInserted

theorem one_warehouse : 1 ≤ 1 ∧ 1 ≤ 100 := by decide

/-- The client, with the constants that it draws. -/
def quietClient : TPCCClient := .ofMain (quiet.setC ⟨100, 0, 0⟩) 1 one_warehouse

/-- It draws them first. -/
theorem quiet_constants : NURandC.makeRandomForRun quiet 103000 ⟨0, 1, 2⟩ 0 = some (⟨100, 0, 0⟩, 3) := by
  refine (NURandC.makeRandomForRun_eq_some quiet).mpr ⟨0, Nat.zero_le _, ?_, fun j hj => ?_, rfl, rfl⟩
  · decide
  · exact absurd hj (Nat.not_lt_zero j)

/-- The request that it begins with. -/
theorem quiet_order (a : ClientCall) (ha : a.function = .doOne) : quietClient.request (F := ℚ) a 3 =
    some (.newOrder 1 1 2 (List.replicate 5 ⟨2, 1, 1⟩) false a.now, 30) := by
  rw [TPCCClient.request, ha]
  rfl

/-- A request later on. -/
theorem quiet_stockLevel (a : ClientCall) (ha : a.function = .doOne) {n : ℕ} (hn : 7 ≤ n) :
    quietClient.request (F := ℚ) a n = some (.stockLevel 1 1 10, n + 4) := by
  have hdraw : quietClient.generator.draw 1 100 n = some (1, n + 1) := by
    have hlt : ¬n < 7 := by omega
    change some (quiet.number n 1 100, n + 1) = _
    simp [quiet, hlt]
  rw [TPCCClient.request, ha]
  change quietClient.doOne a.now n = _
  rw [TPCCClient.doOne, bind_apply, hdraw]
  rfl

/-- The requests of a session that comes later. -/
theorem quiet_later {calls : List ClientCall} (hcalls : ∀ a ∈ calls, a.function = .doOne) {s s' : Load ℚ}
    (hs : 7 ≤ s.drawn) {answers : List (Request ℚ × Option Bool)}
    (hrun : quietClient.session calls s = some (answers, s')) :
    7 ≤ s'.drawn ∧ ∀ e ∈ answers, e.1 = .stockLevel 1 1 10 := by
  induction calls generalizing s answers with
  | nil =>
    obtain ⟨rfl, rfl⟩ := Prod.mk.inj (Option.some.inj hrun)
    exact ⟨hs, fun e he => absurd he List.not_mem_nil⟩
  | cons a calls ih =>
    obtain ⟨ha, hcalls⟩ := List.forall_mem_cons.mp hcalls
    rw [TPCCClient.session, List.mapM_cons] at hrun
    obtain ⟨e, s₁, hcall, hrun⟩ := bind_eq_some hrun
    obtain ⟨es, s₂, hrest, hret⟩ := bind_eq_some hrun
    obtain ⟨rfl, rfl⟩ := Prod.mk.inj (Option.some.inj hret)
    obtain ⟨hstock, hdrawn⟩ := Prod.mk.inj (Option.some.inj
      ((TPCCClient.request_of_call hcall).symm.trans (quiet_stockLevel a ha hs)))
    obtain ⟨hlast, hes⟩ := ih hcalls (s := s₁) (by omega) hrest
    exact ⟨hlast, List.forall_mem_cons.mpr ⟨hstock, hes⟩⟩

/-- **The requests of the client**, from the first on. -/
theorem quiet_session {calls : List ClientCall} (hcalls : ∀ a ∈ calls, a.function = .doOne) (hne : calls ≠ [])
    {t : Tables ℚ} {answers : List (Request ℚ × Option Bool)} {s : Load ℚ}
    (hrun : quietClient.session calls ⟨t, 3⟩ = some (answers, s)) :
    7 ≤ s.drawn ∧ ∃ now b es, answers = (.newOrder 1 1 2 (List.replicate 5 ⟨2, 1, 1⟩) false now, b) :: es ∧
      ∀ e ∈ es, e.1 = .stockLevel 1 1 10 := by
  cases calls with
  | nil => exact absurd rfl hne
  | cons a calls =>
    obtain ⟨ha, hcalls⟩ := List.forall_mem_cons.mp hcalls
    rw [TPCCClient.session, List.mapM_cons] at hrun
    obtain ⟨e, s₁, hcall, hrun⟩ := bind_eq_some hrun
    obtain ⟨es, s₂, hrest, hret⟩ := bind_eq_some hrun
    obtain ⟨rfl, rfl⟩ := Prod.mk.inj (Option.some.inj hret)
    obtain ⟨hfirst, hdrawn⟩ := Prod.mk.inj (Option.some.inj
      ((TPCCClient.request_of_call hcall).symm.trans (quiet_order a ha)))
    obtain ⟨hlast, hes⟩ := quiet_later hcalls (s := s₁) (by omega) hrest
    refine ⟨hlast, a.now, e.2, es, ?_, hes⟩
    rw [← hfirst]

theorem quietWorld_calls (nows : List Timestamp) : ∀ a ∈ quietWorld.calls nows, a.function = .doOne := by
  intro a ha
  obtain ⟨e, -, rfl⟩ := List.mem_map.mp ha
  rfl

theorem quietWorld_proper (i : ℕ) : (quietWorld.clock i).Proper := by
  constructor <;> norm_num [quietWorld]

/-- The load of the quiet world draws its constants first. -/
theorem quietWorld_cLoad {numWarehouses : ℕ} {cLoad : NURandC} {t : Tables ℚ}
    (hload : quietWorld.loadTables 103000 numWarehouses = some (cLoad, t)) : cLoad = ⟨0, 1, 2⟩ := by
  have hconstants : NURandC.makeRandom quietWorld.loadRandom 0 = some (⟨0, 1, 2⟩, 3) := rfl
  rw [World.loadTables, hconstants, Option.bind_eq_bind, Option.bind_some] at hload
  obtain ⟨now, -, hload⟩ := Option.bind_eq_some_iff.mp hload
  obtain ⟨r, -, hret⟩ := Option.bind_eq_some_iff.mp hload
  exact (Prod.mk.inj (Option.some.inj hret)).1.symm

/-- The id of the order that is placed is 3001. -/
theorem quietWorld_idsFit : quietWorld.IdsFit 103000 1 ℚ := by
  intro h cLoad c t drawn nows hload hconstants _ done a hcalled answers s hsession r n hrequest
  obtain rfl := quietWorld_cLoad hload
  obtain ⟨rfl, rfl⟩ := Prod.mk.inj (Option.some.inj (hconstants.symm.trans quiet_constants))
  have ha : a.function = .doOne :=
    quietWorld_calls nows a (hcalled.subset (List.mem_append_right _ List.mem_cons_self))
  have hdone : ∀ b ∈ done, b.function = .doOne := fun b hb =>
    quietWorld_calls nows b (hcalled.subset (List.mem_append_left _ hb))
  by_cases hne : done = []
  · subst hne
    obtain ⟨-, rfl⟩ := Prod.mk.inj (Option.some.inj hsession)
    obtain ⟨rfl, -⟩ := Prod.mk.inj (Option.some.inj (hrequest.symm.trans (quiet_order a ha)))
    obtain ⟨-, now, ht⟩ := World.loadTables_eq_some hload
    intro _ k hk
    rw [TPCCClient.nextOId_of_loads ht hk]
    norm_num [TPCCGenerator.ofMain]
  · obtain ⟨hdrawn, -⟩ := quiet_session hdone hne hsession
    obtain ⟨rfl, -⟩ := Prod.mk.inj (Option.some.inj (hrequest.symm.trans (quiet_stockLevel a ha hdrawn)))
    trivial

/-- The load of the quiet world ends. -/
theorem quietWorld_load : ∃ (cLoad : NURandC) (t : Tables ℚ), quietWorld.loadTables 103000 1 = some (cLoad, t) ∧
    cLoad.cLast = 0 := by
  obtain ⟨now, hnow⟩ := Option.isSome_iff_exists.mp (quietWorld_proper 0).timestamp
  have hitems : (RandomGenerator.lettered 0).Covers 103000 1 100000 :=
    RandomGenerator.lettered_covers (RandomGenerator.cycle_covers (by decide) (by decide))
  have hcustomers : (RandomGenerator.lettered 0).Covers 103000 1 3000 :=
    RandomGenerator.lettered_covers (RandomGenerator.cycle_covers (by decide) (by decide))
  have hsums : ((RandomGenerator.lettered 0).setC ⟨0, 1, 2⟩).SumsFit 255 0 (min 999 (3000 - 1)) :=
    RandomGenerator.sumsFit_of_le (c := 0) (e := 10) _ rfl (by decide) (by decide) (by decide)
  have hfair : (TPCCGenerator.ofMain ((RandomGenerator.lettered 0).setC ⟨0, 1, 2⟩) now).Fair 103000 :=
    ⟨⟨le_rfl, hsums⟩, hitems, hcustomers⟩
  obtain ⟨l, hl⟩ := TPCCGenerator.load_isSome (F := ℚ) hfair (show 1 ≤ 100 by decide)
    (fun x hx => hx.distinctNames_of_spells (@RandomGenerator.spells_lettered 0)) 3
  refine ⟨⟨0, 1, 2⟩, l.tables, ?_, rfl⟩
  have hconstants : NURandC.makeRandom quietWorld.loadRandom 0 = some (⟨0, 1, 2⟩, 3) := rfl
  rw [World.loadTables, hconstants, Option.bind_eq_bind, Option.bind_some]
  dsimp only
  rw [hnow, Option.bind_eq_bind, Option.bind_some]
  exact congrArg (Option.bind · _) hl

/-- The one order is what the client was told to be placed. -/
theorem ordersTold_of_quiet {answers : List (Request ℚ × Option Bool)} {t : Tables ℚ}
    (hlength : answers.length = numTransactions) (hanswered : ∀ e ∈ answers, e.2 = e.1.answer)
    (hmain : quietWorld.main 103000 ["tpcc", " 1"] = .ok (some (answers, t))) : ordersTold 1 1 answers = 1 := by
  have hargs : parseArguments ["tpcc", " 1"] = .ok 1 :=
    parseArguments_eq_ok.mpr ⟨"tpcc", " 1", rfl, by decide, by decide, by decide⟩
  rw [World.main_of_accepted hargs one_warehouse] at hmain
  obtain ⟨⟨cLoad, t₀⟩, hload, hrun⟩ := Option.bind_eq_some_iff.mp (Except.ok.inj hmain)
  obtain rfl := quietWorld_cLoad hload
  rw [World.runClient, Option.bind_eq_bind] at hrun
  dsimp only at hrun
  obtain ⟨⟨c, drawn⟩, hconstants, hrun⟩ := Option.bind_eq_some_iff.mp hrun
  obtain ⟨rfl, rfl⟩ := Prod.mk.inj (Option.some.inj (hconstants.symm.trans quiet_constants))
  obtain ⟨nows, -, hrun⟩ := Option.bind_eq_some_iff.mp hrun
  obtain ⟨⟨answers', s⟩, hsession, hret⟩ := Option.bind_eq_some_iff.mp hrun
  obtain ⟨rfl, rfl⟩ := Prod.mk.inj (Option.some.inj hret)
  have hne : quietWorld.calls nows ≠ [] := by
    intro hnil
    have hlen := runAll_length hsession
    rw [hnil, hlength] at hlen
    exact absurd hlen (by norm_num [numTransactions])
  obtain ⟨-, now, b, es, rfl, hes⟩ := quiet_session (quietWorld_calls nows) hne hsession
  obtain rfl : b = some true := (List.forall_mem_cons.mp hanswered).1
  have hrest : ordersTold 1 1 es = 0 := by
    rw [ordersTold, List.countP_eq_zero]
    intro e he
    simp [hes e he, Request.district]
  rw [ordersTold] at hrest
  rw [ordersTold, List.countP_cons, hrest]
  simp [Request.district]

/-- **An order is placed**, and only stock levels are asked for after it. -/
theorem main_ends_quiet : ∃ (answers : List (Request ℚ × Option Bool)) (t : Tables ℚ),
    quietWorld.main 103000 ["tpcc", " 1"] = .ok (some (answers, t)) ∧ answers.length = numTransactions ∧
      ordersTold 1 1 answers = 1 ∧ t.db.NextOId 1 1 3002 ∧ t.db.OrdersConsistent 1 1 ∧ t.db.MoneyConsistent 1 10 := by
  have hargs : parseArguments ["tpcc", " 1"] = .ok 1 :=
    parseArguments_eq_ok.mpr ⟨"tpcc", " 1", rfl, by decide, by decide, by decide⟩
  obtain ⟨result, hmain, hsome, hleaves⟩ := main_ends hargs quietWorld_proper quietWorld_idsFit
  obtain ⟨cLoad, t₀, hload, hcLast⟩ := quietWorld_load
  have hvalid : NURandC.validCRun (NURandC.candidate quietWorld.runRandom 0 0) cLoad.cLast := by
    rw [hcLast]
    decide
  obtain ⟨⟨answers, t⟩, hresult⟩ := Option.isSome_iff_exists.mp
    (hsome.mpr ⟨cLoad, t₀, hload, 0, Nat.zero_le _, hvalid⟩)
  obtain ⟨hlength, hanswered, hconsistent⟩ := hleaves answers t hresult
  have htold : ordersTold 1 1 answers = 1 := ordersTold_of_quiet hlength hanswered (by rw [← hresult, hmain])
  obtain ⟨horders, -, hnext⟩ := hconsistent 1 (by decide) 1 (by decide)
  rw [htold] at hnext
  rw [hresult] at hmain
  exact ⟨answers, t, hmain, hlength, htold, hnext, horders, (hconsistent 1 (by decide) 10 (by decide)).2.1⟩

end TpccBench
