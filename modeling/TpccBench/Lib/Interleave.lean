import TpccBench.Lib.Sites

/-!
# Programs that run at several sites

A run is a list of programs, each at its site, and what it leaves at a site is what the programs of
that site leave there, one after the other (`TpccBench.Prog.runAtSites_iff`). So a run does not
depend on how the programs of different sites are interleaved
(`TpccBench.Prog.runAtSites_interleave`).
-/

namespace TpccBench

namespace Prog

variable {ι S T α : Type} {κ : Type*}

/-- **Programs one after the other**, with their results. -/
def runAll (f : κ → Prog S α) (l : List κ) : Prog S (List α) := l.mapM f

/-- What the first program of a run did, and the others. -/
theorem runAll_cons_iff {f : κ → Prog S α} {k : κ} {l : List κ} {s s' : S} {as : List α} :
    runAll f (k :: l) s = some (as, s') ↔
      ∃ a s₁ as', f k s = some (a, s₁) ∧ runAll f l s₁ = some (as', s') ∧ as = a :: as' := by
  rw [runAll, List.mapM_cons]
  constructor
  · intro h
    obtain ⟨a, s₁, hk, h⟩ := bind_eq_some h
    obtain ⟨as', s₂, hl, hret⟩ := bind_eq_some h
    obtain ⟨rfl, rfl⟩ := Prod.mk.inj (Option.some.inj hret)
    exact ⟨a, s₁, as', hk, hl, rfl⟩
  · rintro ⟨a, s₁, as', hk, hl, rfl⟩
    rw [runAll] at hl
    rw [bind_apply, hk, Option.bind_some, bind_apply, hl]
    rfl

/-- There is a result for each program. -/
theorem runAll_length {f : κ → Prog S α} {l : List κ} {s s' : S} {as : List α}
    (h : runAll f l s = some (as, s')) : as.length = l.length := by
  induction l generalizing s as with
  | nil =>
    obtain ⟨rfl, -⟩ := Prod.mk.inj (Option.some.inj h)
    rfl
  | cons k l ih =>
    obtain ⟨a, s₁, as', -, hl, rfl⟩ := runAll_cons_iff.mp h
    rw [List.length_cons, List.length_cons, ih hl]

/-- What is done with the result changes no state. -/
theorem Sim.map {β γ : Type} {P : S → T → Prop} {x : Prog S β} {y : Prog T β}
    (h : Sim P x y fun a b s t => a = b ∧ P s t) (f : β → γ) :
    Sim P (x >>= fun a => pure (f a)) (y >>= fun a => pure (f a)) fun a b s t => a = b ∧ P s t :=
  h.bind_eq fun _ => Sim.pure fun _ _ hP => ⟨rfl, hP⟩

/-- **A simulation of each program** is one of the run. -/
theorem Sim.runAll {P : S → T → Prop} {f : κ → Prog S α} {g : κ → Prog T α} {l : List κ}
    (h : ∀ k ∈ l, Sim P (f k) (g k) fun a b s t => a = b ∧ P s t) :
    Sim P (Prog.runAll f l) (Prog.runAll g l) fun a b s t => a = b ∧ P s t := by
  rw [Prog.runAll, Prog.runAll]
  induction l with
  | nil =>
    rw [List.mapM_nil, List.mapM_nil]
    exact Sim.pure fun _ _ hP => ⟨rfl, hP⟩
  | cons k l ih =>
    obtain ⟨hk, hl⟩ := List.forall_mem_cons.mp h
    rw [List.mapM_cons, List.mapM_cons]
    refine hk.bind_eq fun a => (ih hl).bind_eq fun as => Sim.pure fun _ _ hP => ⟨rfl, hP⟩

variable [DecidableEq ι]

/-- **Programs at their sites**, one after the other. -/
def runAtSites (site : κ → ι) (f : κ → Prog S α) (l : List κ) : Prog (ι → S) (List α) :=
  runAll (fun k => onSite (site k) (f k)) l

variable {site : κ → ι} {f : κ → Prog S α} {l l' : List κ} {c c' : ι → S} {as : List α}

/-- The programs of a site. -/
def programsAt (site : κ → ι) (i : ι) (l : List κ) : List κ := l.filter fun k => site k = i

/-- The results of the programs of a site. -/
def resultsAt (site : κ → ι) (i : ι) (l : List κ) (as : List α) : List α :=
  ((l.zip as).filter fun e => site e.1 = i).map Prod.snd

section Cons

variable {i : ι} {k : κ} {a : α}

omit [DecidableEq ι] in
@[simp] theorem resultsAt_nil [DecidableEq ι] : resultsAt site i [] as = [] := rfl

theorem programsAt_cons_self : programsAt site (site k) (k :: l) = k :: programsAt site (site k) l :=
  List.filter_cons_of_pos (by simp)

theorem programsAt_cons_of_ne (h : site k ≠ i) : programsAt site i (k :: l) = programsAt site i l :=
  List.filter_cons_of_neg (by simpa)

theorem resultsAt_cons_self : resultsAt site (site k) (k :: l) (a :: as) = a :: resultsAt site (site k) l as := by
  rw [resultsAt, List.zip_cons_cons, List.filter_cons_of_pos (by simp)]
  rfl

theorem resultsAt_cons_of_ne (h : site k ≠ i) : resultsAt site i (k :: l) (a :: as) = resultsAt site i l as := by
  rw [resultsAt, List.zip_cons_cons, List.filter_cons_of_neg (by simpa)]
  rfl

end Cons

/-- **A run at the sites is a run at each of them.** -/
theorem runAtSites_iff : runAtSites site f l c = some (as, c') ↔
    as.length = l.length ∧ ∀ i, runAll f (programsAt site i l) (c i) = some (resultsAt site i l as, c' i) := by
  induction l generalizing c as with
  | nil =>
    constructor
    · intro h
      obtain ⟨rfl, rfl⟩ := Prod.mk.inj (Option.some.inj h)
      exact ⟨rfl, fun i => rfl⟩
    · rintro ⟨has, h⟩
      obtain rfl := List.eq_nil_of_length_eq_zero has
      have hc : c = c' := funext fun i => congrArg Prod.snd (Option.some.inj (h i))
      rw [hc]
      rfl
  | cons k l ih =>
    rw [runAtSites, runAll_cons_iff]
    constructor
    · rintro ⟨a, c₁, as', hk, hl, rfl⟩
      obtain ⟨⟨a', s₁⟩, hs, heq⟩ := Option.map_eq_some_iff.mp hk
      obtain ⟨rfl, rfl⟩ := Prod.mk.inj heq
      obtain ⟨hlen, hall⟩ := ih.mp hl
      refine ⟨by rw [List.length_cons, List.length_cons, hlen], fun i => ?_⟩
      have hi := hall i
      by_cases heq : site k = i
      · subst heq
        rw [Function.update_self] at hi
        rw [programsAt_cons_self, resultsAt_cons_self]
        exact runAll_cons_iff.mpr ⟨_, _, _, hs, hi, rfl⟩
      · rw [Function.update_of_ne (Ne.symm heq)] at hi
        rw [programsAt_cons_of_ne heq, resultsAt_cons_of_ne heq]
        exact hi
    · rintro ⟨hlen, hall⟩
      obtain ⟨a, as', rfl⟩ := List.exists_cons_of_length_eq_add_one hlen
      have hk := hall (site k)
      rw [programsAt_cons_self, resultsAt_cons_self] at hk
      obtain ⟨a', s₁, as₁, hrun, hrest, heq⟩ := runAll_cons_iff.mp hk
      obtain ⟨rfl, rfl⟩ := List.cons.inj heq
      refine ⟨a, Function.update c (site k) s₁, as', ?_, ih.mpr ⟨Nat.succ.inj hlen, fun i => ?_⟩, rfl⟩
      · rw [onSite_apply, hrun]
        rfl
      · by_cases heq : site k = i
        · subst heq
          rw [Function.update_self]
          exact hrest
        · have hi := hall i
          rw [programsAt_cons_of_ne heq, resultsAt_cons_of_ne heq] at hi
          rw [Function.update_of_ne (Ne.symm heq)]
          exact hi

/-- **A run ends** if it does at each of the sites. -/
theorem runAtSites_isSome (h : ∀ i, (runAll f (programsAt site i l) (c i)).isSome) :
    (runAtSites site f l c).isSome := by
  induction l generalizing c with
  | nil => rfl
  | cons k l ih =>
    obtain ⟨⟨as, s'⟩, hk⟩ := Option.isSome_iff_exists.mp (h (site k))
    rw [programsAt_cons_self] at hk
    obtain ⟨a, s₁, as', hrun, hrest, -⟩ := runAll_cons_iff.mp hk
    have hsome := ih (c := Function.update c (site k) s₁) fun i => by
      by_cases heq : site k = i
      · subst heq
        rw [Function.update_self, hrest]
        rfl
      · have hi := h i
        rw [programsAt_cons_of_ne heq] at hi
        rw [Function.update_of_ne (Ne.symm heq)]
        exact hi
    obtain ⟨⟨as₁, c₁⟩, hrest⟩ := Option.isSome_iff_exists.mp hsome
    refine Option.isSome_of_eq_some (runAll_cons_iff.mpr ⟨a, _, as₁, ?_, hrest, rfl⟩)
    rw [onSite_apply, hrun]
    rfl

/-- **Interleavings are alike**: with the same programs at each site in the same order, a run ends in the
same state, with the same results at each site. -/
theorem runAtSites_interleave (hl : ∀ i, programsAt site i l' = programsAt site i l)
    (h : runAtSites site f l c = some (as, c')) :
    ∃ as', runAtSites site f l' c = some (as', c') ∧ ∀ i, resultsAt site i l' as' = resultsAt site i l as := by
  obtain ⟨-, hall⟩ := runAtSites_iff.mp h
  have hsome : (runAtSites site f l' c).isSome := runAtSites_isSome fun i => by
    rw [hl i, hall i]
    rfl
  obtain ⟨⟨as', c''⟩, hrun⟩ := Option.isSome_iff_exists.mp hsome
  obtain ⟨-, hall'⟩ := runAtSites_iff.mp hrun
  have heq : ∀ i, resultsAt site i l' as' = resultsAt site i l as ∧ c'' i = c' i := fun i => by
    have hi := hall' i
    rw [hl i, hall i] at hi
    obtain ⟨has, hc⟩ := Prod.mk.inj (Option.some.inj hi)
    exact ⟨has.symm, hc.symm⟩
  obtain rfl : c'' = c' := funext fun i => (heq i).2
  exact ⟨as', hrun, fun i => (heq i).1⟩

end Prog

/-- Lists that agree for each key have the same elements. -/
theorem perm_of_filter_eq {A K : Type} [DecidableEq K] {l l' : List A} (key : A → K)
    (h : ∀ k, (l.filter fun a => key a = k) = l'.filter fun a => key a = k) : l.Perm l' := by
  classical
  refine List.perm_iff_count.mpr fun a => ?_
  rw [← List.count_filter (p := fun b => decide (key b = key a)) (l := l) (by simp), h,
    List.count_filter (by simp)]

end TpccBench
