import Mathlib.Data.List.Perm.Basic
import Mathlib.Logic.Function.Basic
import TpccBench.Lib.Triple

/-!
# Programs on several states

A distributed state has a state at each site, and a program that runs at one site
(`TpccBench.Prog.onSite`) leaves the others alone. So programs at different sites may be run in
either order, and a simulation at every site is a simulation of the whole.

A loop may collect its results first and accumulate them afterwards, and where its turns commute
it may go through the elements in any order.
-/

namespace TpccBench

namespace Prog

variable {ι κ S T α β γ : Type} [DecidableEq ι]

/-- Run on the state of one site. -/
def onSite (i : ι) (x : Prog S α) : Prog (ι → S) α := fun c =>
  (x (c i)).map fun r => (r.1, Function.update c i r.2)

theorem onSite_apply (i : ι) (x : Prog S α) (c : ι → S) :
    onSite i x c = (x (c i)).map fun r => (r.1, Function.update c i r.2) := rfl

/-- **A simulation at every site.** -/
theorem Sim.onSite {P : S → T → Prop} {x : Prog S α} {y : Prog T β} {J : α → β → Prop}
    (h : Sim P x y fun a b s t => J a b ∧ P s t) (i : ι) :
    Sim (fun c d => ∀ i, P (c i) (d i)) (Prog.onSite i x) (Prog.onSite i y)
      fun a b c d => J a b ∧ ∀ i, P (c i) (d i) := by
  intro c d hP
  have hrel := h (c i) (d i) (hP i)
  rw [onSite_apply, onSite_apply]
  generalize x (c i) = r at hrel
  generalize y (d i) = r' at hrel
  cases hrel with
  | none => exact Option.Rel.none
  | some hr =>
    refine Option.Rel.some ⟨hr.1, fun j => ?_⟩
    dsimp only
    by_cases hj : j = i
    · subst hj
      rw [Function.update_self, Function.update_self]
      exact hr.2
    · rw [Function.update_of_ne hj, Function.update_of_ne hj]
      exact hP j

/-- **What every site keeps**, the sites keep. -/
theorem Triple.onSite {P : S → Prop} {x : Prog S α} (h : Triple P x fun _ => P) (i : ι) :
    Triple (fun c => ∀ i, P (c i)) (Prog.onSite i x) fun _ c => ∀ i, P (c i) := by
  intro c hP a c' hrun j
  rw [onSite_apply] at hrun
  obtain ⟨⟨a', s⟩, hx, heq⟩ := Option.map_eq_some_iff.mp hrun
  obtain ⟨rfl, rfl⟩ := Prod.mk.inj heq
  by_cases hj : j = i
  · subst hj
    rw [Function.update_self]
    exact h (c j) (hP j) a' s hx
  · rw [Function.update_of_ne hj]
    exact hP j

omit [DecidableEq ι]

/-- **Collecting first** and accumulating afterwards is accumulating at once. -/
theorem mapM_bind_foldlM (f : κ → Prog S β) (g : α → β → Option α) (l : List κ) (a : α) :
    (l.mapM f >>= fun bs => (liftM (bs.foldlM g a) : Prog S α)) =
      l.foldlM (fun a k => f k >>= fun b => (liftM (g a b) : Prog S α)) a := by
  induction l generalizing a with
  | nil =>
    funext s
    rfl
  | cons k l ih =>
    funext s
    rw [List.mapM_cons, List.foldlM_cons, bind_assoc, bind_assoc]
    simp only [bind_apply]
    cases f k s with
    | none => rfl
    | some r =>
      obtain ⟨b, s'⟩ := r
      rw [Option.bind_some, Option.bind_some, lift_apply]
      cases hg : g a b with
      | none =>
        -- the turns to come make no difference to a failure
        rw [Option.map_none, Option.bind_none]
        cases hrest : l.mapM f s' with
        | none => rfl
        | some r' => simp [pure_apply, lift_apply, hg]
      | some a' =>
        rw [Option.map_some, Option.bind_some, ← ih a']
        simp only [bind_apply]
        cases l.mapM f s' with
        | none => rfl
        | some r' => simp [pure_apply, lift_apply, hg]

/-- **Turns that commute** may come in any order. -/
theorem foldlM_perm {step : α → κ → Prog S α} {l l' : List κ} (h : l.Perm l')
    (hcomm : ∀ i ∈ l, ∀ j ∈ l, i ≠ j → ∀ a,
      (step a i >>= fun a => step a j) = (step a j >>= fun a => step a i)) (a : α) :
    l.foldlM step a = l'.foldlM step a := by
  have hfold : ∀ (l : List κ) (x : Prog S α),
      (x >>= fun a => l.foldlM step a) = l.foldl (fun x i => x >>= fun a => step a i) x := by
    intro l
    induction l with
    | nil => exact fun x => bind_pure x
    | cons i l ih =>
      intro x
      rw [List.foldl_cons, ← ih, bind_assoc]
      simp only [List.foldlM_cons]
  have hpure : ∀ l : List κ, l.foldlM step a = l.foldl (fun x i => x >>= fun a => step a i) (pure a) :=
    fun l => by rw [← hfold, pure_bind]
  rw [hpure, hpure]
  refine h.foldl_eq' (fun i hi j hj x => ?_) (pure a)
  by_cases hij : i = j
  · rw [hij]
  · simp only [bind_assoc, hcomm i hi j hj hij]

/-- **Parts at different sites** do not see each other: with results that may be
accumulated in any order, they may run in any order. -/
theorem mapM_onSite_perm [DecidableEq ι] {f : ι → Prog S β} {g : α → β → Option α} {J : ι → β → Prop}
    {l l' : List ι} (hf : ∀ i s r, f i s = some r → J i r.1)
    (hg : ∀ i j b b', i ≠ j → J i b → J j b' → ∀ a,
      ((g a b).bind fun a => g a b') = (g a b').bind fun a => g a b) (h : l.Perm l') (a : α) :
    (l.mapM (fun i => onSite i (f i)) >>= fun bs => (liftM (bs.foldlM g a) : Prog (ι → S) α)) =
      l'.mapM (fun i => onSite i (f i)) >>= fun bs => liftM (bs.foldlM g a) := by
  rw [mapM_bind_foldlM, mapM_bind_foldlM]
  refine foldlM_perm h (fun i _ j _ hij a => ?_) a
  -- two turns: run both parts first
  have htwo : ∀ i j : ι, ((onSite i (f i) >>= fun b => (liftM (g a b) : Prog (ι → S) α)) >>= fun a =>
      onSite j (f j) >>= fun b => (liftM (g a b) : Prog (ι → S) α)) = fun c =>
        (onSite i (f i) c).bind fun r => (onSite j (f j) r.2).bind fun r' =>
          ((g a r.1).bind fun a => g a r'.1).map fun a => (a, r'.2) := by
    intro i j
    funext c
    simp only [bind_apply, lift_apply]
    cases onSite i (f i) c with
    | none => rfl
    | some r =>
      simp only [Option.bind_some]
      cases g a r.1 with
      | none =>
        cases onSite j (f j) r.2 with
        | none => rfl
        | some r' => rfl
      | some a' => rfl
  rw [htwo, htwo]
  funext c
  simp only [onSite_apply]
  cases hi : f i (c i) with
  | none =>
    cases hj : f j (c j) with
    | none => rfl
    | some r' => simp [Function.update_of_ne hij, hi]
  | some r =>
    cases hj : f j (c j) with
    | none => simp [Function.update_of_ne hij.symm, hj]
    | some r' =>
      simp only [Option.map_some, Option.bind_some, Function.update_of_ne hij,
        Function.update_of_ne hij.symm, hi, hj]
      rw [hg i j _ _ hij (hf _ _ _ hi) (hf _ _ _ hj), Function.update_comm hij]

end Prog

end TpccBench
