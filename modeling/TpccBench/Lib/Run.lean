import Mathlib.Data.List.Induction

/-!
# Runs of a system that takes step after step

A system is a step function `S → A → Option S`, where `none` is a step that fails. A run
is a list of actions, and what a step may do or assume is a property of the action
*and of the actions before it* (`TpccBench.Run.Each`): a condition on the state the action
meets is such a property, since the actions before it determine the state.

The one rule is `TpccBench.Run.induction`: what the initial state satisfies, and every
allowed step can be taken from and preserves, is satisfied after every run whose steps
are allowed – and no step of such a run fails.
-/

namespace TpccBench

namespace Run

variable {S A : Type*}

/-- The state after a list of actions, `none` when one of them fails. -/
def result (step : S → A → Option S) (s : S) (l : List A) : Option S := l.foldlM step s

@[simp] theorem result_nil (step : S → A → Option S) (s : S) : result step s [] = some s := rfl

theorem result_append (step : S → A → Option S) (s : S) (l l' : List A) :
    result step s (l ++ l') = (result step s l).bind fun t => result step t l' :=
  List.foldlM_append

theorem result_snoc (step : S → A → Option S) (s : S) (l : List A) (a : A) :
    result step s (l ++ [a]) = (result step s l).bind fun t => step t a := by
  rw [result_append]
  refine congrArg _ (funext fun t => ?_)
  exact bind_pure _

/-- Every action of the list has the property, given the actions before it. -/
def Each (P : List A → A → Prop) (l : List A) : Prop := ∀ done a, done ++ [a] <+: l → P done a

variable {P Q : List A → A → Prop} {l : List A} {a : A}

@[simp] theorem each_nil : Each P [] := fun done a h => by
  have := List.prefix_nil.mp h
  simp at this

theorem each_snoc : Each P (l ++ [a]) ↔ Each P l ∧ P l a := by
  constructor
  · intro h
    exact ⟨fun done b hb => h done b (hb.trans (List.prefix_append l [a])),
      h l a (List.prefix_refl _)⟩
  · rintro ⟨hl, ha⟩ done b hb
    rcases List.prefix_concat_iff.mp hb with heq | hb
    · obtain ⟨rfl, hba⟩ := List.append_inj' heq rfl
      rwa [List.singleton_inj.mp hba]
    · exact hl done b hb

theorem Each.and (hP : Each P l) (hQ : Each Q l) : Each (fun done a => P done a ∧ Q done a) l :=
  fun done a hl => ⟨hP done a hl, hQ done a hl⟩

/-- Actions that have a property come before an initial part too. -/
theorem Each.of_initial {l' : List A} (h : Each P l') (hl : l <+: l') : Each P l :=
  fun done a hd => h done a (hd.trans hl)

theorem each_iff_getElem : Each P l ↔ ∀ i (h : i < l.length), P (l.take i) l[i] := by
  constructor
  · intro hl i hi
    refine hl _ _ ?_
    rw [List.take_append_getElem hi]
    exact List.take_prefix _ _
  · rintro h done b ⟨t, rfl⟩
    have hb := h done.length (by simp)
    simpa [List.append_assoc] using hb

instance [∀ done a, Decidable (P done a)] : Decidable (Each P l) :=
  decidable_of_iff _ each_iff_getElem.symm

/-- **Induction over a run.** An invariant of the actions done and the state reached
that every allowed step preserves, failing never, holds after every run of allowed
steps. -/
theorem induction {step : S → A → Option S} {s : S} {I : List A → S → Prop} (h0 : I [] s)
    (hstep : ∀ done a t, result step s done = some t → I done t → P done a →
      ∃ t', step t a = some t' ∧ I (done ++ [a]) t')
    (hl : Each P l) : ∃ t, result step s l = some t ∧ I l t := by
  induction l using List.reverseRecOn with
  | nil => exact ⟨s, rfl, h0⟩
  | append_singleton l a ih =>
    obtain ⟨hl, ha⟩ := each_snoc.mp hl
    obtain ⟨t, ht, hI⟩ := ih hl
    obtain ⟨t', ht', hI'⟩ := hstep l a t ht hI ha
    exact ⟨t', by rw [result_snoc, ht, Option.bind_some, ht'], hI'⟩

end Run

end TpccBench
