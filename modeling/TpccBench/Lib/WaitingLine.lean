import Mathlib.Data.List.Induction
import Mathlib.Order.Bounds.Basic
import Mathlib.Order.MinMax

/-!
# A line that is served one at a time

Who comes is put at the end of a line, and each time that the line is served its head goes, if there is one
(`TpccBench.WaitingLine.step`). A time of service that meets an empty line is lost. So the head of the line after a
run is the least of all the ways to cut the run in two: all that have come before the cut are gone, and one more
for each time of service after it (`TpccBench.WaitingLine.isLeast_head_run`). Who is in the line already waits for as
many times of service as there are before him, and for his own (`TpccBench.WaitingLine.lt_head_run_iff`).
-/

namespace TpccBench

/-- **A line**: those from `head` up to but not including `next` are waiting. -/
structure WaitingLine where
  head : ℤ
  next : ℤ
  head_le : head ≤ next

namespace WaitingLine

inductive Event
  | arrive
  | serve
  | pass
  deriving DecidableEq

/-- **What an event does** to a line. -/
def step (l : WaitingLine) : Event → WaitingLine
  | .arrive => ⟨l.head, l.next + 1, l.head_le.trans (by omega)⟩
  | .serve => if h : l.head < l.next then ⟨l.head + 1, l.next, h⟩ else l
  | .pass => l

def run (l : WaitingLine) (es : List Event) : WaitingLine := es.foldl step l

variable {l : WaitingLine} {e : Event} {es : List Event}

theorem run_snoc : l.run (es ++ [e]) = (l.run es).step e := List.foldl_append

theorem step_serve_head : (l.step .serve).head = min (l.head + 1) l.next := by
  have hle := l.head_le
  rw [step]
  split
  · next h =>
    dsimp only
    omega
  · next h => omega

theorem step_serve_next : (l.step .serve).next = l.next := by
  rw [step]
  split <;> rfl

/-- **The end of the line** counts those that have come. -/
theorem next_run : (l.run es).next = l.next + es.count .arrive := by
  induction es using List.reverseRecOn with
  | nil => simp [run]
  | append_singleton es e ih =>
    rw [run_snoc, List.count_append]
    cases e with
    | arrive =>
      rw [List.count_singleton_self]
      push_cast
      rw [← Int.add_assoc, ← ih]
      rfl
    | serve =>
      rw [step_serve_next, ih]
      simp
    | pass =>
      rw [step, ih]
      simp

/-- **A cut**: those that have come before it are gone, and one more for each time of service after it. If nothing
is cut off, the head has moved each time. -/
def Cut (l : WaitingLine) (es : List Event) (x : ℤ) : Prop :=
  x = l.head + es.count .serve ∨ ∃ es₁ es₂, es = es₁ ++ es₂ ∧ x = l.next + es₁.count .arrive + es₂.count .serve

/-- An event after the cut. -/
theorem Cut.snoc {x : ℤ} (h : l.Cut es x) (e : Event) : l.Cut (es ++ [e]) (x + [e].count .serve) := by
  rcases h with rfl | ⟨es₁, es₂, rfl, rfl⟩
  · left
    rw [List.count_append]
    push_cast
    omega
  · refine Or.inr ⟨es₁, es₂ ++ [e], List.append_assoc es₁ es₂ [e], ?_⟩
    rw [List.count_append]
    push_cast
    omega

/-- A cut of more events: at the end, or before the last one. -/
theorem Cut.of_snoc {x : ℤ} (h : l.Cut (es ++ [e]) x) :
    x = (l.run (es ++ [e])).next ∨ l.Cut es (x - [e].count .serve) := by
  rcases h with rfl | ⟨es₁, es₂, heq, rfl⟩
  · right
    left
    rw [List.count_append]
    push_cast
    omega
  · rcases List.eq_nil_or_concat es₂ with rfl | ⟨es₃, e', rfl⟩
    · left
      rw [next_run, heq, List.append_nil]
      simp
    · right
      rw [List.concat_eq_append, ← List.append_assoc] at heq
      obtain ⟨rfl, he⟩ := List.append_inj' heq rfl
      obtain rfl := List.singleton_inj.mp he
      refine Or.inr ⟨es₁, es₃, rfl, ?_⟩
      rw [List.concat_eq_append, List.count_append]
      push_cast
      omega

variable (l es) in
/-- **The head of the line is the least cut.** -/
theorem isLeast_head_run : IsLeast {x | l.Cut es x} (l.run es).head := by
  induction es using List.reverseRecOn with
  | nil =>
    refine ⟨Or.inl (by simp [run]), ?_⟩
    rintro x (rfl | ⟨es₁, es₂, heq, rfl⟩)
    · simp [run]
    · obtain ⟨rfl, rfl⟩ := List.append_eq_nil_iff.mp heq.symm
      have hle := l.head_le
      simpa [run] using hle
  | append_singleton es e ih =>
    obtain ⟨hmem, hleast⟩ := ih
    have hbound := (l.run (es ++ [e])).head_le
    -- the cuts before the last event have moved as the head has, unless the line is empty
    have hhead : (l.run (es ++ [e])).head ≤ (l.run es).head + [e].count .serve ∧
        (l.Cut (es ++ [e]) (l.run (es ++ [e])).head) := by
      rw [run_snoc]
      cases e with
      | arrive => exact ⟨by simp [step], by simpa [step] using Cut.snoc hmem .arrive⟩
      | pass => exact ⟨by simp [step], by simpa [step] using Cut.snoc hmem .pass⟩
      | serve =>
        rw [step_serve_head, List.count_singleton_self]
        refine ⟨min_le_left _ _, ?_⟩
        rcases min_choice ((l.run es).head + 1) (l.run es).next with heq | heq
        · rw [heq]
          exact Cut.snoc hmem .serve
        · rw [heq, next_run]
          refine Or.inr ⟨es ++ [.serve], [], (List.append_nil _).symm, ?_⟩
          simp
    refine ⟨hhead.2, ?_⟩
    intro x hx
    rcases Cut.of_snoc hx with rfl | hcut
    · exact hbound
    · have := hleast hcut
      omega

/-- **Who is in the line** is gone as soon as the line was served for him and for those before him. -/
theorem lt_head_run_iff {o : ℤ} (ho : o < l.next) : o < (l.run es).head ↔ o < l.head + es.count .serve := by
  obtain ⟨hmem, hleast⟩ := l.isLeast_head_run es
  constructor
  · intro h
    exact lt_of_lt_of_le h (hleast (Or.inl rfl))
  · intro h
    rcases hmem with heq | ⟨es₁, es₂, -, heq⟩
    · rwa [heq]
    · rw [heq]
      omega

variable (l es) in
theorem head_le_head_run : l.head ≤ (l.run es).head := by
  obtain ⟨hmem, -⟩ := l.isLeast_head_run es
  have hle := l.head_le
  rcases hmem with heq | ⟨es₁, es₂, -, heq⟩ <;> omega

end WaitingLine

end TpccBench
