import TpccBench.Lib.Sim

/-!
# What a program that ends has done

Partial correctness for programs that may fail (`TpccBench.Prog.Triple`): whatever holds
before, if the program ends, something holds of its result and of the state it leaves. An
assertion that did not fail is something to go on from, and so is a row that was read. The
rules follow the program text, those for loops that collect something have an invariant of the elements
still to come.
-/

namespace TpccBench

namespace Prog

variable {S α β : Type}

/-- The elements and their results, one by one. -/
theorem forall₂_of_mapM {f : α → Option β} {l : List α} {l' : List β} (h : l.mapM f = some l') :
    List.Forall₂ (fun a b => f a = some b) l l' := by
  induction l generalizing l' with
  | nil =>
    rw [List.mapM_nil] at h
    obtain rfl := Option.some.inj h
    exact List.Forall₂.nil
  | cons a l ih =>
    rw [List.mapM_cons] at h
    obtain ⟨b, hb, h⟩ := Option.bind_eq_some_iff.mp h
    obtain ⟨bs, hbs, h⟩ := Option.bind_eq_some_iff.mp h
    obtain rfl := Option.some.inj h
    exact List.Forall₂.cons hb (ih hbs)

theorem exists_of_forall₂_right {R : α → β → Prop} {l : List α} {l' : List β} {b : β}
    (h : List.Forall₂ R l l') (hb : b ∈ l') : ∃ a ∈ l, R a b := by
  induction h with
  | nil => exact absurd hb List.not_mem_nil
  | cons hab _ ih =>
    rcases List.mem_cons.mp hb with rfl | hb
    · exact ⟨_, List.mem_cons_self, hab⟩
    · obtain ⟨a, ha, hab⟩ := ih hb
      exact ⟨a, List.mem_cons_of_mem _ ha, hab⟩

/-- Elements for each of which there is one. -/
theorem exists_forall₂ {R : α → β → Prop} {l : List α} (h : ∀ a ∈ l, ∃ b, R a b) : ∃ l', List.Forall₂ R l l' := by
  induction l with
  | nil => exact ⟨[], List.Forall₂.nil⟩
  | cons a l ih =>
    obtain ⟨ha, hl⟩ := List.forall_mem_cons.mp h
    obtain ⟨b, hb⟩ := ha
    obtain ⟨l', hl'⟩ := ih hl
    exact ⟨b :: l', List.Forall₂.cons hb hl'⟩

theorem exists_of_mem_mapM {f : α → Option β} {l : List α} {l' : List β} {b : β}
    (h : l.mapM f = some l') (hb : b ∈ l') : ∃ a ∈ l, f a = some b :=
  exists_of_forall₂_right (R := fun a b => f a = some b) (forall₂_of_mapM h) hb

/-- **If the program ends**, started where `P` holds, then `Q` holds. -/
def Triple (P : S → Prop) (x : Prog S α) (Q : α → S → Prop) : Prop :=
  ∀ s, P s → ∀ a s', x s = some (a, s') → Q a s'

namespace Triple

variable {P P' : S → Prop} {Q Q' : α → S → Prop} {R : β → S → Prop} {x : Prog S α}

protected theorem pure {a : α} (h : ∀ s, P s → Q a s) : Triple P (pure a) Q := by
  rintro s hP b s' hs
  obtain ⟨rfl, rfl⟩ := Prod.mk.inj (Option.some.inj hs)
  exact h s hP

/-- **Composition.** -/
protected theorem bind {f : α → Prog S β} (hx : Triple P x Q) (hf : ∀ a, Triple (Q a) (f a) R) :
    Triple P (x >>= f) R := by
  intro s hP b s' hs
  obtain ⟨a, s₁, hxs, hfs⟩ := bind_eq_some hs
  exact hf a s₁ (hx s hP a s₁ hxs) b s' hfs

/-- Composition, when it does not matter what was done first. -/
theorem last {f : α → Prog S β} (hf : ∀ a, Triple (fun _ => True) (f a) R) :
    Triple P (x >>= f) R :=
  Triple.bind (Q := fun _ _ => True) (fun _ _ _ _ _ => trivial) hf

theorem conseq (h : Triple P x Q) (hP : ∀ s, P' s → P s) (hQ : ∀ a s, Q a s → Q' a s) :
    Triple P' x Q' :=
  fun s hs a s' hx => hQ a s' (h s (hP s hs) a s' hx)

theorem pre (h : Triple P x Q) (hP : ∀ s, P' s → P s) : Triple P' x Q := h.conseq hP fun _ _ hQ => hQ

theorem post (h : Triple P x Q) (hQ : ∀ a s, Q a s → Q' a s) : Triple P x Q' :=
  h.conseq (fun _ hP => hP) hQ

/-- A fact about the state that does not depend on it. -/
theorem of_fact {p : Prop} (h : p → Triple P x Q) : Triple (fun s => p ∧ P s) x Q :=
  fun s hP => h hP.1 s hP.2

theorem assert {p : Prop} [Decidable p] : Triple P (Prog.assert p) fun _ s => p ∧ P s := by
  intro s hP a s' hs
  obtain ⟨hp, rfl⟩ := assert_eq_some hs
  exact ⟨hp, hP⟩

theorem lift (o : Option α) : Triple P (liftM o) fun a s => o = some a ∧ P s := by
  intro s hP a s' hs
  obtain ⟨ho, rfl⟩ := lift_eq_some hs
  exact ⟨ho, hP⟩

protected theorem failure : Triple P (failure : Prog S α) Q := fun _ _ _ _ hs => nomatch hs

/-- **A loop that collects results.** -/
theorem mapM {ι : Type} {I : List ι → S → Prop} {J : ι → α → Prop} {f : ι → Prog S α}
    (h : ∀ i l, Triple (I (i :: l)) (f i) fun a s => J i a ∧ I l s) (l : List ι) :
    Triple (I l) (l.mapM f) fun as s => List.Forall₂ J l as ∧ I [] s := by
  induction l with
  | nil =>
    rw [List.mapM_nil]
    exact Triple.pure fun s hI => ⟨List.Forall₂.nil, hI⟩
  | cons i l ih =>
    rw [List.mapM_cons]
    refine (h i l).bind fun a => of_fact fun ha => ih.bind fun as => of_fact fun has => ?_
    exact Triple.pure fun s hI => ⟨List.Forall₂.cons ha has, hI⟩

/-- **A loop that accumulates.** -/
theorem foldlM {ι : Type} {I : List ι → α → S → Prop} {f : α → ι → Prog S α}
    (h : ∀ a i l, Triple (I (i :: l) a) (f a i) (I l)) (l : List ι) (a : α) :
    Triple (I l a) (l.foldlM f a) (I []) := by
  induction l generalizing a with
  | nil =>
    rw [List.foldlM_nil]
    exact Triple.pure fun s hI => hI
  | cons i l ih =>
    rw [List.foldlM_cons]
    exact (h a i l).bind fun b => ih b

/-- **A loop that is run for its effect.** -/
theorem forM {ι : Type} {I : S → Prop} {x : ι → Prog S Unit} {l : List ι} (h : ∀ i ∈ l, Triple I (x i) fun _ => I) :
    Triple I (l.forM x) fun _ => I := by
  induction l with
  | nil => exact Triple.pure fun s hI => hI
  | cons i l ih =>
    obtain ⟨hi, hl⟩ := List.forall_mem_cons.mp h
    rintro s hI _ s' hs
    rw [forM_cons_apply] at hs
    obtain ⟨⟨_, s₁⟩, hrun, hs⟩ := Option.bind_eq_some_iff.mp hs
    exact ih hl s₁ (hi s hI () s₁ hrun) () s' hs

end Triple

/-- A loop fails in the turn that does. -/
theorem forM_eq_none {ι : Type} {I : S → Prop} {x : ι → Prog S Unit} {l : List ι} {i : ι} (hi : i ∈ l)
    (h : ∀ j ∈ l, Triple I (x j) fun _ => I) (hfail : ∀ s, I s → x i s = none) {s : S} (hs : I s) :
    l.forM x s = none := by
  induction l generalizing s with
  | nil => exact absurd hi List.not_mem_nil
  | cons j l ih =>
    obtain ⟨hj, hl⟩ := List.forall_mem_cons.mp h
    rw [forM_cons_apply]
    cases hrun : x j s with
    | none => rfl
    | some r =>
      have hr : I r.2 := hj s hs r.1 r.2 hrun
      rcases List.mem_cons.mp hi with rfl | hi
      · exact absurd ((hfail s hs).symm.trans hrun) (by simp)
      · exact ih hi hl hr

/-- **A simulation of programs that keep something**: each of them keeps it, so the pair does. -/
theorem Sim.and_triple {T : Type} {P : S → T → Prop} {Q : α → β → S → T → Prop} {x : Prog S α} {y : Prog T β}
    {I : S → Prop} {J : T → Prop} (h : Sim P x y Q) (hx : Triple I x fun _ => I) (hy : Triple J y fun _ => J) :
    Sim (fun s t => P s t ∧ I s ∧ J t) x y fun a b s t => Q a b s t ∧ I s ∧ J t := by
  rintro s t ⟨hP, hI, hJ⟩
  have hrel := h s t hP
  have hx := hx s hI
  have hy := hy t hJ
  generalize x s = r at hrel hx
  generalize y t = r' at hrel hy
  cases hrel with
  | none => exact Option.Rel.none
  | some hQ => exact Option.Rel.some ⟨hQ, hx _ _ rfl, hy _ _ rfl⟩

end Prog

end TpccBench
