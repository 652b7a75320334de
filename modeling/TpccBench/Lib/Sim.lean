import Mathlib.Data.List.Forall2
import Mathlib.Data.Option.Basic

/-!
# Programs that fail, and simulation between two of them

A program runs on a state and may fail. Two programs on two kinds of states are compared
by `TpccBench.Prog.Sim`: started in related states they both fail, or both end, with
related results in related states. The rules follow the way a program is put together, so
a proof of a simulation is read along the program text.
-/

namespace TpccBench

/-- A program on states `S` that may fail. -/
abbrev Prog (S α : Type) := StateT S Option α

namespace Prog

variable {S T α β γ δ : Type}

/-- `assert`. -/
def assert (p : Prop) [Decidable p] : Prog S Unit := fun s => if p then some ((), s) else none

theorem bind_apply (x : Prog S α) (f : α → Prog S β) (s : S) :
    (x >>= f) s = (x s).bind fun r => f r.1 r.2 := rfl

theorem pure_apply (a : α) (s : S) : (pure a : Prog S α) s = some (a, s) := rfl

theorem lift_apply (x : Option α) (s : S) :
    (liftM x : Prog S α) s = x.map fun a => (a, s) := by
  cases x <;> rfl

theorem forM_cons_apply {ι : Type} (x : ι → Prog S Unit) (i : ι) (l : List ι) (s : S) :
    (i :: l).forM x s = (x i s).bind fun r => l.forM x r.2 := rfl

theorem forM_append_apply {ι : Type} (x : ι → Prog S Unit) (l l' : List ι) (s : S) :
    (l ++ l').forM x s = (l.forM x s).bind fun r => l'.forM x r.2 := by
  induction l generalizing s with
  | nil => rfl
  | cons i l ih =>
    rw [List.cons_append, forM_cons_apply, forM_cons_apply, Option.bind_assoc]
    exact congrArg _ (funext fun r => ih r.2)

/-- The last turn of a loop that collects results. -/
theorem mapM_snoc_apply {ι : Type*} (f : ι → Prog S α) (l : List ι) (i : ι) (s : S) :
    (l ++ [i]).mapM f s = (l.mapM f s).bind fun r => (f i r.2).map fun r' => (r.1 ++ [r'.1], r'.2) := by
  rw [List.mapM_append, bind_apply]
  refine congrArg _ (funext fun r => ?_)
  rw [List.mapM_cons, List.mapM_nil, bind_assoc, bind_apply]
  cases f i r.2 <;> rfl

/-- What a program that has not failed did first. -/
theorem bind_eq_some {x : Prog S α} {f : α → Prog S β} {s : S} {r : β × S}
    (h : (x >>= f) s = some r) : ∃ a s', x s = some (a, s') ∧ f a s' = some r := by
  rw [bind_apply] at h
  obtain ⟨⟨a, s'⟩, hx, hf⟩ := Option.bind_eq_some_iff.mp h
  exact ⟨a, s', hx, hf⟩

theorem lift_eq_some {o : Option α} {s s' : S} {a : α}
    (h : (liftM o : Prog S α) s = some (a, s')) : o = some a ∧ s = s' := by
  rw [lift_apply] at h
  obtain ⟨b, hb, heq⟩ := Option.map_eq_some_iff.mp h
  obtain ⟨rfl, rfl⟩ := Prod.mk.inj heq
  exact ⟨hb, rfl⟩

theorem assert_eq_some {p : Prop} [Decidable p] {s s' : S} {a : Unit}
    (h : assert p s = some (a, s')) : p ∧ s = s' := by
  rw [assert] at h
  split at h
  · next hp => exact ⟨hp, congrArg Prod.snd (Option.some.inj h)⟩
  · exact absurd h (by simp)

section Rel

variable {P P' : α → β → Prop} {Q : β → γ → Prop} {x : Option α} {y : Option β} {z : Option γ}

theorem rel_mono (h : Option.Rel P x y) (hP : ∀ a b, P a b → P' a b) : Option.Rel P' x y := by
  cases h with
  | some h => exact Option.Rel.some (hP _ _ h)
  | none => exact Option.Rel.none

theorem rel_symm (h : Option.Rel P x y) : Option.Rel (fun b a => P a b) y x := by
  cases h with
  | some h => exact Option.Rel.some h
  | none => exact Option.Rel.none

theorem rel_trans (h : Option.Rel P x y) (h' : Option.Rel Q y z) :
    Option.Rel (fun a c => ∃ b, P a b ∧ Q b c) x z := by
  cases h with
  | some h =>
    cases h' with
    | some h' => exact Option.Rel.some ⟨_, h, h'⟩
  | none =>
    cases h' with
    | none => exact Option.Rel.none

theorem rel_isSome (h : Option.Rel P x y) : x.isSome = y.isSome := by
  cases h with
  | some h => rfl
  | none => rfl

end Rel

/-- **One program simulates the other**: from related states they fail together, or end
together in related states. -/
def Sim (P : S → T → Prop) (x : Prog S α) (y : Prog T β) (Q : α → β → S → T → Prop) : Prop :=
  ∀ s t, P s t → Option.Rel (fun r r' => Q r.1 r'.1 r.2 r'.2) (x s) (y t)

namespace Sim

variable {P P' : S → T → Prop} {Q Q' : α → β → S → T → Prop} {R : γ → δ → S → T → Prop}
  {x : Prog S α} {y : Prog T β}

protected theorem pure {a : α} {b : β} (h : ∀ s t, P s t → Q a b s t) :
    Sim P (pure a) (pure b) Q :=
  fun s t hP => Option.Rel.some (h s t hP)

/-- **Composition.** -/
protected theorem bind {f : α → Prog S γ} {g : β → Prog T δ} (hx : Sim P x y Q)
    (hf : ∀ a b, Sim (Q a b) (f a) (g b) R) : Sim P (x >>= f) (y >>= g) R := by
  intro s t hP
  rw [bind_apply, bind_apply]
  cases hxs : x s with
  | none =>
    have h := hx s t hP
    rw [hxs] at h
    cases hyt : y t with
    | none => exact Option.Rel.none
    | some r' =>
      rw [hyt] at h
      nomatch h
  | some r =>
    have h := hx s t hP
    rw [hxs] at h
    cases hyt : y t with
    | none =>
      rw [hyt] at h
      nomatch h
    | some r' =>
      rw [hyt] at h
      cases h with
      | some h => exact hf r.1 r'.1 r.2 r'.2 h

/-- The same program from the same state. -/
protected theorem refl (x : Prog S α) : Sim (fun s t => s = t) x x fun a b s t => a = b ∧ s = t := by
  rintro s _ rfl
  cases x s with
  | none => exact Option.Rel.none
  | some r => exact Option.Rel.some ⟨rfl, rfl⟩

/-- Programs that do the same from the same state. -/
protected theorem eq {x y : Prog S α} (h : Sim (fun s t => s = t) x y fun a b s t => a = b ∧ s = t) : x = y := by
  funext s
  have hrel := h s s rfl
  generalize x s = r at hrel
  generalize y s = r' at hrel
  cases hrel with
  | none => rfl
  | some hr => exact congrArg some (Prod.ext hr.1 hr.2)

theorem conseq (h : Sim P x y Q) (hP : ∀ s t, P' s t → P s t)
    (hQ : ∀ a b s t, Q a b s t → Q' a b s t) : Sim P' x y Q' := by
  intro s t hs
  exact rel_mono (h s t (hP s t hs)) fun r r' => hQ r.1 r'.1 r.2 r'.2

theorem post (h : Sim P x y Q) (hQ : ∀ a b s t, Q a b s t → Q' a b s t) : Sim P x y Q' :=
  h.conseq (fun _ _ hP => hP) hQ

theorem pre (h : Sim P x y Q) (hP : ∀ s t, P' s t → P s t) : Sim P' x y Q :=
  h.conseq hP fun _ _ _ _ hQ => hQ

/-- A fact about the states that does not depend on them. -/
theorem of_fact {p : Prop} (h : p → Sim P x y Q) : Sim (fun s t => p ∧ P s t) x y Q :=
  fun s t hP => h hP.1 s t hP.2

/-- Composition, when the results are the same on both sides. -/
theorem bind_eq {x : Prog S α} {y : Prog T α} {Q : α → S → T → Prop} {f : α → Prog S γ}
    {g : α → Prog T δ} (hx : Sim P x y fun a b s t => a = b ∧ Q a s t)
    (hf : ∀ a, Sim (Q a) (f a) (g a) R) : Sim P (x >>= f) (y >>= g) R := by
  refine hx.bind fun a b => of_fact fun hab => ?_
  subst hab
  exact hf a

theorem assert {p q : Prop} [Decidable p] [Decidable q] (h : ∀ s t, P s t → (p ↔ q)) :
    Sim P (Prog.assert p) (Prog.assert q) fun a b s t => a = b ∧ p ∧ P s t := by
  intro s t hP
  rw [Prog.assert, Prog.assert]
  by_cases hp : p
  · rw [if_pos hp, if_pos ((h s t hP).mp hp)]
    exact Option.Rel.some ⟨rfl, hp, hP⟩
  · rw [if_neg hp, if_neg fun hq => hp ((h s t hP).mpr hq)]
    exact Option.Rel.none

/-- The same computation that does not look at the state. -/
theorem lift (o : Option α) : Sim P (liftM o : Prog S α) (liftM o : Prog T α)
    fun a b s t => a = b ∧ o = some a ∧ P s t := by
  intro s t hP
  rw [lift_apply, lift_apply]
  cases o with
  | none => exact Option.Rel.none
  | some a => exact Option.Rel.some ⟨rfl, rfl, hP⟩

protected theorem failure : Sim P (failure : Prog S α) (failure : Prog T β) Q :=
  fun _ _ _ => Option.Rel.none

theorem ite {p q : Prop} [Decidable p] [Decidable q] {x' : Prog S α} {y' : Prog T β} (h : p ↔ q)
    (hx : p → Sim P x y Q) (hx' : ¬p → Sim P x' y' Q) :
    Sim P (if p then x else x') (if q then y else y') Q := by
  by_cases hp : p
  · rw [if_pos hp, if_pos (h.mp hp)]
    exact hx hp
  · rw [if_neg hp, if_neg fun hq => hp (h.mpr hq)]
    exact hx' hp

/-- **A loop that collects results**, over one list: an invariant of the elements still
to come, and what the results have to do with each other. -/
theorem mapM_forall₂ {ι : Type} {I : List ι → S → T → Prop} {J : α → β → Prop} {f : ι → Prog S α}
    {g : ι → Prog T β} (h : ∀ i l, Sim (I (i :: l)) (f i) (g i) fun a b s t => J a b ∧ I l s t)
    (l : List ι) :
    Sim (I l) (l.mapM f) (l.mapM g) fun as bs s t => List.Forall₂ J as bs ∧ I [] s t := by
  induction l with
  | nil =>
    rw [List.mapM_nil, List.mapM_nil]
    exact Sim.pure fun s t hI => ⟨List.Forall₂.nil, hI⟩
  | cons i l ih =>
    rw [List.mapM_cons, List.mapM_cons]
    refine (h i l).bind fun a b => of_fact fun hab => ih.bind fun as bs => of_fact fun hall => ?_
    exact Sim.pure fun s t hI => ⟨List.Forall₂.cons hab hall, hI⟩

/-- **A loop that collects results**, over two lists. -/
theorem mapM_of_forall₂ {ι κ : Type} {E : ι → κ → Prop} {J : α → β → Prop} {f : ι → Prog S α} {g : κ → Prog T β}
    (h : ∀ i k, E i k → Sim P (f i) (g k) fun a b s t => J a b ∧ P s t) {l : List ι} {l' : List κ}
    (hl : List.Forall₂ E l l') :
    Sim P (l.mapM f) (l'.mapM g) fun as bs s t => List.Forall₂ J as bs ∧ P s t := by
  induction hl with
  | nil =>
    rw [List.mapM_nil, List.mapM_nil]
    exact Sim.pure fun s t hP => ⟨List.Forall₂.nil, hP⟩
  | cons hik _ ih =>
    rw [List.mapM_cons, List.mapM_cons]
    refine (h _ _ hik).bind fun a b => of_fact fun hab => ih.bind fun as bs => of_fact fun hall => ?_
    exact Sim.pure fun s t hP => ⟨List.Forall₂.cons hab hall, hP⟩

/-- The same results on both sides. -/
theorem mapM {ι : Type} {I : List ι → S → T → Prop} {f : ι → Prog S α} {g : ι → Prog T α}
    (h : ∀ i l, Sim (I (i :: l)) (f i) (g i) fun a b s t => a = b ∧ I l s t) (l : List ι) :
    Sim (I l) (l.mapM f) (l.mapM g) fun as bs s t => as = bs ∧ I [] s t :=
  (mapM_forall₂ h l).post fun _ _ _ _ hall => ⟨List.forall₂_eq_eq_eq ▸ hall.1, hall.2⟩

/-- **A loop that accumulates**, over one list. -/
theorem foldlM {ι : Type} {I : List ι → S → T → Prop} {f : α → ι → Prog S α}
    {g : α → ι → Prog T α}
    (h : ∀ a i l, Sim (I (i :: l)) (f a i) (g a i) fun a b s t => a = b ∧ I l s t) (l : List ι)
    (a : α) : Sim (I l) (l.foldlM f a) (l.foldlM g a) fun a b s t => a = b ∧ I [] s t := by
  induction l generalizing a with
  | nil =>
    rw [List.foldlM_nil, List.foldlM_nil]
    exact Sim.pure fun s t hI => ⟨rfl, hI⟩
  | cons i l ih =>
    rw [List.foldlM_cons, List.foldlM_cons]
    exact (h a i l).bind_eq fun b => ih b

/-- **A loop** over one list. -/
theorem forM {ι : Type} {I : List ι → S → T → Prop} {f : ι → Prog S Unit} {g : ι → Prog T Unit}
    (h : ∀ i l, Sim (I (i :: l)) (f i) (g i) fun _ _ s t => I l s t) (l : List ι) :
    Sim (I l) (l.forM f) (l.forM g) fun _ _ s t => I [] s t := by
  induction l with
  | nil => exact Sim.pure fun s t hI => hI
  | cons i l ih => exact (h i l).bind fun _ _ => ih

end Sim

end Prog

end TpccBench
