import TpccBench.Lib.WaitingLine
import TpccBench.Load.Window

/-!
# The orders of a district wait in line

A district is a line: an order that is placed comes to it, and each delivery to the warehouse serves it. So
which orders a run delivers is known from the order of the two alone, whatever else the run does and whatever it is
replied (`TpccBench.delivered_in_line`): an order waits for exactly as many deliveries as there are orders before it, and
no order that is placed later delays it.
-/

namespace TpccBench

open Prog

variable {F : Type} {w d : ℤ}

/-- **What the line of a district sees** of a transaction. -/
def Txn.event (w d : ℤ) (x : Txn F) (r : Reply F) : WaitingLine.Event :=
  match x with
  | .delivery w' _ _ => if w' = w then .serve else .pass
  | _ => if x.home = some (w, d) ∧ r.committed = true then .arrive else .pass

/-- What it sees of a run. -/
def events (w d : ℤ) (calls : List (Txn F × Option HashOrder)) (replies : List (Reply F)) : List WaitingLine.Event :=
  (calls.zip replies).map fun e => e.1.1.event w d e.2

theorem events_snoc {calls : List (Txn F × Option HashOrder)} {replies : List (Reply F)} {e : Txn F × Option HashOrder}
    {r : Reply F} (hlen : calls.length = replies.length) :
    events w d (calls ++ [e]) (replies ++ [r]) = events w d calls replies ++ [e.1.event w d r] := by
  rw [events, List.zip_append hlen, List.map_append]
  rfl

/-- What is not a delivery takes nothing. -/
theorem Txn.taken_of_event {x : Txn F} {r : Reply F} (h : x.event w d r ≠ .serve) : x.taken w d r = [] := by
  cases x with
  | delivery w' carrierId now =>
    have hne : ¬w' = w := fun heq => h (if_pos heq)
    cases r with
    | delivery orders => exact if_neg hne
    | _ => rfl
  | _ => rfl

theorem Txn.event_eq_serve {x : Txn F} {r : Reply F} (h : x.event w d r = .serve) :
    ∃ carrierId now, x = .delivery w carrierId now := by
  cases x with
  | delivery w' carrierId now =>
    rw [Txn.event] at h
    split at h
    · next heq => exact ⟨carrierId, now, by rw [heq]⟩
    · exact absurd h (by decide)
  | _ =>
    rw [Txn.event] at h
    · split at h <;> exact absurd h (by decide)
    · simp

/-- **An order comes to the line** where one is placed. -/
theorem Txn.event_eq_arrive {x : Txn F} {r : Reply F} :
    x.event w d r = .arrive ↔ x.home = some (w, d) ∧ r.committed = true := by
  cases x with
  | delivery w' carrierId now =>
    refine iff_of_false ?_ ?_
    · rw [Txn.event]
      split <;> decide
    · rintro ⟨hhome, -⟩
      exact absurd hhome (Option.some_ne_none _).symm
  | _ =>
    rw [Txn.event]
    · split
      · next h => exact iff_of_true rfl h
      · next h => exact iff_of_false (by decide) h
    · simp

/-- So many as are placed. -/
theorem count_arrive_events (calls : List (Txn F × Option HashOrder)) (replies : List (Reply F)) :
    (events w d calls replies).count .arrive = placedAll w d calls replies := by
  rw [events, List.count_eq_countP, List.countP_map, placedAll]
  refine List.countP_congr fun e _ => ?_
  simp [Txn.event_eq_arrive]

variable [Money F] {db db' : Db F} {l : WaitingLine} {x : Txn F} {r : Reply F}

namespace Db

/-- **A delivery takes the head of the line**, if there is one. -/
theorem Queue.taken_step (h : db.Queue w d l.head l.next) (hk : db.Keyed) (hd : d ∈ Tx.districtIds)
    (hs : Step x r db db') : x.taken w d r = idsFrom l.head (l.step (x.event w d r)).head := by
  have hpass : x.event w d r ≠ .serve → x.taken w d r = idsFrom l.head (l.step (x.event w d r)).head := by
    intro hne
    rw [Txn.taken_of_event hne]
    cases hevent : x.event w d r with
    | serve => exact absurd hevent hne
    | arrive => exact (idsFrom_self _).symm
    | pass => exact (idsFrom_self _).symm
  by_cases hserve : x.event w d r = .serve
  · rw [hserve, WaitingLine.step_serve_head]
    obtain ⟨carrierId, now, rfl⟩ := Txn.event_eq_serve hserve
    cases hs with
    | deliver hships =>
      rw [Txn.taken, if_pos rfl]
      rcases hships.at hk (by decide) hd with ⟨hnone, hnil, -⟩ | ⟨o, p, db₁, hold, hone, -⟩
      · rw [hnil, ← h.oldest_eq_none.mp hnone, min_eq_right (by omega), idsFrom_self]
        rfl
      · obtain ⟨rfl, hlt⟩ := h.oldest_eq_some hold
        rw [hone, min_eq_left (by omega), idsFrom_succ le_rfl, idsFrom_self]
        rfl
    | refuse hplaces => cases hplaces
    | place hplaces => cases hplaces
    | pay hpays => cases hpays
    | payRemote hpays => cases hpays
  · exact hpass hserve

/-- **A step of the line.** -/
theorem Queue.line_step (h : db.Queue w d l.head l.next) (hk : db.Keyed) (hd : d ∈ Tx.districtIds)
    (hs : Step x r db db') :
    db'.Queue w d (l.step (x.event w d r)).head (l.step (x.event w d r)).next ∧
      (x.Carries → db.Pipeline w d l.head l.next →
        db'.Pipeline w d (l.step (x.event w d r)).head (l.step (x.event w d r)).next) := by
  obtain ⟨k', n', hle, -, htaken, hq, hp⟩ := h.step (hs.at hk w hd)
  have hhead : k' = (l.step (x.event w d r)).head := by
    rw [h.taken_step hk hd hs] at htaken
    have hlen := congrArg List.length htaken
    have hle' := l.head_le_head_run [x.event w d r]
    simp only [idsFrom, List.length_map, List.length_range] at hlen
    have hrun : l.run [x.event w d r] = l.step (x.event w d r) := rfl
    rw [hrun] at hle'
    omega
  have hnext : n' = (l.step (x.event w d r)).next := by
    have hn := Option.some.inj (hq.nextOId.symm.trans (hs.nextOId h.nextOId))
    have hiff := Txn.event_eq_arrive (w := w) (d := d) (x := x) (r := r)
    rw [hn]
    cases hevent : x.event w d r with
    | arrive => exact if_pos (hiff.mp hevent)
    | serve =>
      have hno := mt hiff.mpr (by rw [hevent]; decide)
      exact (if_neg hno).trans WaitingLine.step_serve_next.symm
    | pass =>
      have hno := mt hiff.mpr (by rw [hevent]; decide)
      exact if_neg hno
  subst hhead
  subst hnext
  exact ⟨hq, hp⟩

end Db

variable {t t' : Tables F} {calls : List (Txn F × Option HashOrder)} {replies : List (Reply F)}

/-- **The line after a run.** -/
theorem line_of_run (ht : t.Sound) (hcalls : ∀ e ∈ calls, e.1.Carries) (hd : d ∈ Tx.districtIds)
    (hp : t.db.Pipeline w d l.head l.next) (h : commitAll calls t = some (replies, t')) :
    takenAll w d calls replies = idsFrom l.head (l.run (events w d calls replies)).head ∧
      t'.db.Pipeline w d (l.run (events w d calls replies)).head (l.run (events w d calls replies)).next := by
  refine (commitAll_induction (I := fun calls replies db => calls.length = replies.length ∧
    takenAll w d calls replies = idsFrom l.head (l.run (events w d calls replies)).head ∧
    db.Pipeline w d (l.run (events w d calls replies)).head (l.run (events w d calls replies)).next) ht
    ⟨rfl, (idsFrom_self _).symm, hp⟩ ?_ h).2.2
  rintro done dones e r db db' he hk ⟨hlen, htaken, hp'⟩ hs
  have htaken' := hp'.toQueue.taken_step hk hd hs
  obtain ⟨-, hstep⟩ := hp'.toQueue.line_step hk hd hs
  refine ⟨by simp [hlen], ?_, ?_⟩
  · have hle := (l.run (events w d done dones)).head_le_head_run [e.1.event w d r]
    rw [takenAll_snoc hlen, htaken, htaken', events_snoc hlen, WaitingLine.run_snoc]
    exact idsFrom_append (l.head_le_head_run _) hle
  · rw [events_snoc hlen, WaitingLine.run_snoc]
    exact hstep (hcalls e he) hp'

/-- **Orders are delivered in line.** From a district whose orders are in order a run delivers the ids from the head
of its queue on, up to the least of all cuts of the run: those placed before the cut, and one for each delivery after
it. An order that waits there is delivered exactly if there are enough deliveries for it and for those before
it. -/
theorem delivered_in_line (ht : t.Sound) (hcalls : ∀ e ∈ calls, e.1.Carries) (hd : d ∈ Tx.districtIds)
    (hp : t.db.Pipeline w d l.head l.next) (h : commitAll calls t = some (replies, t')) :
    (∃ k, IsLeast {x | l.Cut (events w d calls replies) x} k ∧ takenAll w d calls replies = idsFrom l.head k ∧
        t'.db.Pipeline w d k (l.next + placedAll w d calls replies)) ∧
      ∀ o, l.head ≤ o → o < l.next →
        (o ∈ takenAll w d calls replies ↔ o < l.head + (events w d calls replies).count .serve) := by
  obtain ⟨htaken, hp'⟩ := line_of_run ht hcalls hd hp h
  refine ⟨⟨_, WaitingLine.isLeast_head_run _ _, htaken, ?_⟩, ?_⟩
  · rwa [WaitingLine.next_run, count_arrive_events] at hp'
  · intro o hle hlt
    rw [htaken, mem_idsFrom, WaitingLine.lt_head_run_iff hlt]
    exact and_iff_right hle

namespace TPCCGenerator

/-- The loaded order, and the one that is placed: both are delivered. -/
theorem delivered_in_line_generated :
    ∃ replies t', commitAll generatedCalls generatedTables = some (replies, t') ∧
      (1 ∈ takenAll 1 1 generatedCalls replies ↔
        (1 : ℤ) < 1 + (events 1 1 generatedCalls replies).count .serve) := by
  obtain ⟨⟨replies, t'⟩, hrun⟩ := Option.isSome_iff_exists.mp generatedCalls_run
  have hcalls : ∀ e ∈ generatedCalls, e.1.Carries := by
    simp [generatedCalls, Txn.Carries]
  obtain ⟨hs, x, hx, hdb⟩ := generatedTables_loads.exists_db
  have hp : generatedTables.db.Pipeline 1 1 1 2 := hdb ▸ hx.pipeline (w := 1) (d := 1) (by decide) (by decide)
  obtain ⟨-, hdelivered⟩ := delivered_in_line hs hcalls (by decide) (l := ⟨1, 2, by decide⟩) hp hrun
  exact ⟨replies, t', hrun, hdelivered 1 (by decide) (by decide)⟩

end TPCCGenerator

end TpccBench
