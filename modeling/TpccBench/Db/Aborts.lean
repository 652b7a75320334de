import TpccBench.Db.Partition
import TpccBench.Db.Undone

/-!
# Transactions that are aborted at several instances

Any number of parts of a transaction may have been executed, each at an instance and with a buffer of its own, when
the transaction is aborted: then each instance applies its buffers, the last one first, and it does not matter
which instance comes when. This never fails, and leaves the instances as they were
(`TpccBench.Attempt.run_restores`). So a run with aborted transactions between the others answers what a run of the
others answers on one instance, and leaves the same rows (`TpccBench.distributed_aborts`).
-/

namespace TpccBench

open Prog

variable {F : Type} [Money F]

/-! ### At one instance -/

/-- The tables of an instance, and the variables `undo` of the transactions that it has executed, the last one
first. -/
abbrev Instance (F : Type) := Tables F × List (Option (TPCCUndo F))

namespace Instance

/-- **Execute a transaction** with an `undo` that is null at first. -/
def exec (x : Txn F) : Prog (Instance F) Unit := fun s =>
  (x.exec ⟨s.1, some none⟩).map fun r => ((), (r.2.tables, r.2.buffer :: s.2))

omit [Money F] in
/-- **Apply the buffer** of the last transaction, if it has allocated one. -/
def undo (h : HashOrder) : Prog (Instance F) Unit := fun s =>
  match s.2 with
  | [] => none
  | o :: us => (Op.ifAllocated (Op.applyUndo h) o s.1).map fun r => ((), (r.2, us))

/-- **The buffers lead back** to the tables `t₀`. -/
structure LeadsBack (t₀ : Tables F) (s : Instance F) : Prop where
  stacked : Stacked t₀ s.2.reduceOption s.1
  wellFormed : s.1.WellFormed

variable {t₀ : Tables F} {s s' : Instance F}

theorem LeadsBack.exec (h : LeadsBack t₀ s) {x : Txn F} {u : Unit} (hrun : exec x s = some (u, s')) :
    LeadsBack t₀ s' ∧ s'.2.length = s.2.length + 1 := by
  obtain ⟨r, hx, heq⟩ := Option.map_eq_some_iff.mp hrun
  obtain ⟨-, rfl⟩ := Prod.mk.inj heq
  have hpush : x.push (s.1, s.2.reduceOption) = some (r.2.tables, r.2.buffer.toList ++ s.2.reduceOption) := by
    rw [Txn.push, hx]
    rfl
  obtain ⟨hs, hwf⟩ := h.stacked.step h.wellFormed hpush
  refine ⟨⟨?_, hwf⟩, List.length_cons⟩
  cases hbuffer : r.2.buffer with
  | none =>
    rw [hbuffer] at hs
    exact hs
  | some u =>
    rw [hbuffer] at hs
    exact hs

omit [Money F] in
/-- **To undo never fails.** -/
theorem undo_stacked {o : Option (TPCCUndo F)} {us : List (Option (TPCCUndo F))} {t : Tables F}
    (h : Stacked t₀ (o :: us).reduceOption t) (order : HashOrder) :
    ∃ t', Instance.undo order (t, o :: us) = some ((), (t', us)) ∧ Stacked t₀ us.reduceOption t' := by
  cases o with
  | none => exact ⟨t, rfl, h⟩
  | some u =>
    have hs : Stacked t₀ (u :: us.reduceOption) t := h
    cases hs with
    | @push _ t₁ _ _ hs hj =>
      obtain ⟨t', hrun, hc, hn⟩ := hj.applyUndo order
      have hnext : ∀ k, t₁.rest.next k ≤ t'.rest.next k := by
        intro k
        rw [hn]
        exact hj.next_le k
      refine ⟨t', ?_, hs.congr hc hnext⟩
      rw [Instance.undo]
      dsimp only
      rw [Op.ifAllocated, hrun]
      rfl

/-- **Transactions that are executed** leave a buffer each. -/
theorem LeadsBack.exec_all (h : LeadsBack t₀ s) {K : Type*} {f : K → Txn F} {l : List K} {as : List Unit}
    (hrun : runAll (fun k => Instance.exec (f k)) l s = some (as, s')) :
    LeadsBack t₀ s' ∧ s'.2.length = s.2.length + l.length := by
  induction l generalizing s as with
  | nil =>
    obtain ⟨-, rfl⟩ := Prod.mk.inj (Option.some.inj hrun)
    exact ⟨h, rfl⟩
  | cons k l ih =>
    obtain ⟨_, s₁, as', hk, hl, -⟩ := runAll_cons_iff.mp hrun
    obtain ⟨h₁, hlen₁⟩ := h.exec hk
    obtain ⟨h', hlen⟩ := ih h₁ hl
    refine ⟨h', ?_⟩
    rw [hlen, hlen₁, List.length_cons]
    omega

omit [Money F] in
/-- **All is undone**, the last one first. -/
theorem undo_all {K : Type*} {l : List K} {us : List (Option (TPCCUndo F))} {t : Tables F}
    (h : Stacked t₀ us.reduceOption t) (hlen : us.length = l.length) (order : HashOrder) :
    ∃ as t', runAll (fun _ => Instance.undo order) l (t, us) = some (as, (t', [])) ∧ t'.contents = t₀.contents := by
  induction l generalizing t us with
  | nil =>
    obtain rfl := List.eq_nil_of_length_eq_zero hlen
    cases h with
    | base hc => exact ⟨[], t, rfl, hc⟩
  | cons k l ih =>
    obtain ⟨o, us, rfl⟩ := List.exists_cons_of_length_eq_add_one hlen
    obtain ⟨t₁, hundo, h₁⟩ := undo_stacked h order
    obtain ⟨as, t', hrun, hc⟩ := ih h₁ (Nat.succ.inj hlen)
    exact ⟨() :: as, t', runAll_cons_iff.mpr ⟨(), _, as, hundo, hrun, rfl⟩, hc⟩

end Instance

/-! ### At the instances -/

variable {ι : Type} [DecidableEq ι]

/-- **A transaction that is aborted**: its parts that have been executed, and the order in which their instances
apply the buffers. -/
structure Attempt (ι F : Type) where
  parts : List (ι × Txn F)
  sites : List ι
  order : HashOrder
  perm : sites.Perm (parts.map Prod.fst)

namespace Attempt

/-- **The parts** at their instances. -/
def execute (a : Attempt ι F) : Prog (ι → Instance F) (List Unit) :=
  runAtSites Prod.fst (fun e => Instance.exec e.2) a.parts

omit [Money F] in
/-- **The buffers** at the instances. -/
def revert (a : Attempt ι F) : Prog (ι → Instance F) (List Unit) :=
  runAtSites id (fun _ => Instance.undo a.order) a.sites

/-- **The parts, and then the buffers.** -/
def run (a : Attempt ι F) : Prog (ι → Tables F) Unit := fun c =>
  ((a.execute >>= fun _ => a.revert) fun i => (c i, [])).map fun r => ((), fun i => (r.2 i).1)

variable {a : Attempt ι F} {c c' : ι → Tables F}

omit [Money F] in
/-- An instance has as many buffers to apply as it has executed parts. -/
theorem length_sites (i : ι) : (programsAt id i a.sites).length = (programsAt Prod.fst i a.parts).length := by
  have hperm := (a.perm.filter fun j => decide (j = i)).length_eq
  rw [List.filter_map, List.length_map] at hperm
  exact hperm

/-- **A transaction can be aborted** after any of its parts, in whatever order the instances come, and leaves
each instance as it was. -/
theorem run_restores (hc : ∀ i, (c i).WellFormed) (h : (a.execute fun i => (c i, [])).isSome) :
    ∃ c', a.run c = some ((), c') ∧ ∀ i, (c' i).contents = (c i).contents := by
  obtain ⟨⟨as, s⟩, hexecute⟩ := Option.isSome_iff_exists.mp h
  -- what the parts of each instance have left, and what their buffers lead back to
  have hundo : ∀ i, ∃ as t', runAll (fun _ => Instance.undo a.order) (programsAt id i a.sites) (s i) =
      some (as, (t', [])) ∧ t'.contents = (c i).contents := by
    intro i
    have hstart : Instance.LeadsBack (c i) (c i, []) := ⟨Stacked.base rfl, hc i⟩
    obtain ⟨hback, hlen⟩ := hstart.exec_all ((runAtSites_iff.mp hexecute).2 i)
    refine Instance.undo_all hback.stacked ?_ a.order
    rw [hlen, length_sites, List.length_nil, Nat.zero_add]
  have hends : (a.revert s).isSome := by
    refine runAtSites_isSome fun i => ?_
    obtain ⟨as', t', hrun, -⟩ := hundo i
    exact Option.isSome_of_eq_some hrun
  obtain ⟨⟨as', s'⟩, hrevert⟩ := Option.isSome_iff_exists.mp hends
  refine ⟨fun i => (s' i).1, ?_, ?_⟩
  · rw [run, bind_apply, hexecute, Option.bind_some, hrevert]
    rfl
  · intro i
    obtain ⟨as₁, t', hrun, ht'⟩ := hundo i
    have hi := (runAtSites_iff.mp hrevert).2 i
    rw [hrun] at hi
    have heq : t' = (s' i).1 := congrArg Prod.fst (Prod.mk.inj (Option.some.inj hi)).2
    exact (congrArg Tables.contents heq).symm.trans ht'

/-- What an attempt that ends has executed. -/
theorem execute_isSome (h : a.run c = some ((), c')) : (a.execute fun i => (c i, [])).isSome := by
  obtain ⟨⟨as, s⟩, hrun, -⟩ := Option.map_eq_some_iff.mp h
  obtain ⟨as', s', hexecute, -⟩ := bind_eq_some hrun
  exact Option.isSome_of_eq_some hexecute

end Attempt

/-! ### Runs with aborted transactions -/

variable {site : ℤ → ι} {c c' : ι → Tables F} {t : Tables F}

omit [Money F] [DecidableEq ι] in
/-- Instances with the same contents are deployed alike. -/
theorem Deployed.congr (h : Deployed site c t) (hc : ∀ i, (c' i).contents = (c i).contents) : Deployed site c' t := by
  refine ⟨fun i => (h.instances i).of_contents (hc i), h.sound, ?_⟩
  rw [show (fun i => (c' i).db) = fun i => (c i).db from funext fun i => Tables.db_of_contents (hc i)]
  exact h.split

/-- A job that is carried out, or a transaction that is aborted. -/
inductive Round (ι F : Type)
  | commit (job : Job F) (how : Conduct F)
  | abort (a : Attempt ι F)

namespace Round

def atSites (site : ℤ → ι) : Round ι F → Prog (ι → Tables F) (Option (Reply F))
  | commit job how => do
    let r ← job.atSites site how
    return some r
  | abort a => do
    a.run
    return none

omit [Money F] [DecidableEq ι] in
/-- The job, if it is carried out. -/
def job : Round ι F → Option (Job F)
  | commit job _ => some job
  | abort _ => none

end Round

/-- **Aborted transactions never were.** A run on several instances, with aborted transactions in between, answers
what a run of its jobs answers on one instance, and leaves the same rows; and afterwards every transaction whose
parts can be executed can be aborted. -/
theorem distributed_aborts (h : Deployed site c t) (o : HashOrder) (free : Option HashOrder)
    {rounds : List (Round ι F)} {replies : List (Option (Reply F))}
    (hrun : runAll (Round.atSites site) rounds c = some (replies, c')) :
    ∃ t', runAll (fun j => (Job.txn o j).reply.commit free) (rounds.filterMap Round.job) t =
        some (replies.reduceOption, t') ∧ Deployed site c' t' ∧
      ∀ a : Attempt ι F, (a.execute fun i => (c' i, [])).isSome →
        ∃ c'', a.run c' = some ((), c'') ∧ Deployed site c'' t' := by
  induction rounds generalizing c t replies with
  | nil =>
    obtain ⟨rfl, rfl⟩ := Prod.mk.inj (Option.some.inj hrun)
    refine ⟨t, rfl, h, fun a ha => ?_⟩
    obtain ⟨c'', hrun, hc⟩ := a.run_restores (fun i => (h.instances i).toWellFormed) ha
    exact ⟨c'', hrun, h.congr hc⟩
  | cons round rounds ih =>
    obtain ⟨r, c₁, replies', hround, hrest, rfl⟩ := runAll_cons_iff.mp hrun
    cases round with
    | commit job how =>
      obtain ⟨reply, c₂, hjob, hret⟩ := bind_eq_some hround
      obtain ⟨rfl, rfl⟩ := Prod.mk.inj (Option.some.inj hret)
      -- the job is done on one instance too
      have hrel := job.sim how o free c t h
      rw [hjob] at hrel
      generalize hone : (job.txn o).reply.commit free t = r' at hrel
      cases hrel with
      | @some _ r' hr =>
        obtain ⟨reply', t₁⟩ := r'
        obtain ⟨rfl, hdep⟩ := hr
        obtain ⟨t', hjobs, hdep', haborts⟩ := ih hdep hrest
        exact ⟨t', runAll_cons_iff.mpr ⟨_, t₁, _, hone, hjobs, rfl⟩, hdep', haborts⟩
    | abort a =>
      obtain ⟨_, c₂, habort, hret⟩ := bind_eq_some hround
      obtain ⟨rfl, rfl⟩ := Prod.mk.inj (Option.some.inj hret)
      obtain ⟨c₃, hrun', hc⟩ := a.run_restores (fun i => (h.instances i).toWellFormed) (Attempt.execute_isSome habort)
      obtain rfl : c₃ = c₂ := congrArg Prod.snd (Option.some.inj (hrun'.symm.trans habort))
      obtain ⟨t', hjobs, hdep, haborts⟩ := ih (h.congr hc) hrest
      exact ⟨t', hjobs, hdep, haborts⟩

/-- Both parts of a new order are executed, and the remote one is undone first. -/
def twinAttempt : Attempt ℤ ℚ where
  parts := [(1, .newOrderHome 1 1 1 suppliedItems (List.replicate 14 '0') .new), (2, .newOrderRemote 1 2 suppliedItems)]
  sites := [2, 1]
  order := .asInserted
  perm := List.Perm.swap 1 2 []

/-- A payment, the order that is aborted, and a delivery. -/
def twinRounds : List (Round ℤ ℚ) :=
  [.commit (.payment 2 1 1 1 1 5 (List.replicate 14 '0')) ⟨.asInserted, fun _ => none, usedBuffer⟩, .abort twinAttempt,
    .commit (.delivery 1 3 (List.replicate 14 '0')) ⟨.asInserted, fun _ => none, usedBuffer⟩]

theorem distributed_aborts_twin : ∃ replies c t,
    runAll (Round.atSites id) twinRounds (fun _ : ℤ => twinTables) = some (replies, c) ∧
      runAll (fun j => (Job.txn .asInserted j).reply.commit none) (twinRounds.filterMap Round.job) twinTables =
        some (replies.reduceOption, t) ∧ Deployed id c t := by
  have hrun : (runAll (Round.atSites id) twinRounds (fun _ : ℤ => twinTables)).isSome := by decide +kernel
  obtain ⟨⟨replies, c⟩, hrun⟩ := Option.isSome_iff_exists.mp hrun
  have hdep : Deployed id (fun _ : ℤ => twinTables) twinTables :=
    ⟨fun _ => twinTables_sound, twinTables_sound, twinTables_sound.keyed.split⟩
  obtain ⟨t, hjobs, hdep', -⟩ := distributed_aborts hdep .asInserted none hrun
  exact ⟨replies, c, t, hrun, hjobs, hdep'⟩

end TpccBench
