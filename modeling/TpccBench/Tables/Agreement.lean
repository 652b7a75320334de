import TpccBench.Lib.Triple
import TpccBench.Tables.Undo

/-!
# The tables and their indexes agree

From the empty tables on, whatever is inserted, executed and undone: an order is in one of
the two order indexes when it is in the other, every row is where its fields say, and the
`find*` functions find exactly the row that is asked for
(`TpccBench.Tables.Agree`, `TpccBench.tables_agree`).

An undo buffer may come to be applied long after it was filled. What is needed of it then is
little: that it was filled with images of rows as they are linked still
(`TpccBench.Images`). That survives everything, since addresses are not handed out twice and
no operation relinks a row.
-/

namespace TpccBench

open Prog

variable {F : Type} {t t' : Tables F} {u : TPCCUndo F}

/-- The images of the buffer are linked as the rows they are images of. -/
def Images (u : TPCCUndo F) (t : Tables F) : Prop :=
  ∀ ⦃k p⦄ ⦃r : Row F k⦄, (p, r) ∈ u.modified k → p < t.rest.next k ∧
    ∀ r', t.store.cell k p = some r' → rowLinks k r = rowLinks k r'

theorem Images.evolves (h : Images u t) (he : Evolves t t') : Images u t' := by
  intro k p r hm
  obtain ⟨hp, hr⟩ := h hm
  refine ⟨lt_of_lt_of_le hp (he.next_le k), fun r'' hr'' => ?_⟩
  obtain ⟨r', hr', hl⟩ := he.links hp hr''
  rw [hr r' hr', hl]

theorem lt_next_of_live {k : Kind} {p : Ptr} (h : (t.store.cell k p).isSome) : p < t.rest.next k := by
  by_contra hle
  have hdead : t.store.cell k p = none := (t.memory k).unused p (not_lt.mp hle)
  simp [hdead] at h

theorem Journals.images {t₀ : Tables F} (hj : Journals t₀ u t) : Images u t := by
  intro k p r hm
  obtain ⟨r₁, hr₁, hl₁⟩ := hj.undoes.saved_live hm
  refine ⟨lt_next_of_live (by rw [hr₁]; rfl), fun r' hr' => ?_⟩
  obtain rfl := Option.some.inj (hr₁.symm.trans hr')
  exact hl₁.symm

/-- A transaction does not relink a row. -/
theorem Journals.evolves {t₀ : Tables F} (hj : Journals t₀ u t) : Evolves t₀ t where
  linked _ := hj.linked
  next_le := hj.next_le
  links {k p r'} hp hr := by
    have hi : p ∉ u.inserted k := fun hi => absurd hp (not_lt.mpr (hj.next_le_inserted k p hi))
    by_cases hm : ∃ r, (p, r) ∈ u.modified k
    · obtain ⟨r, hm⟩ := hm
      obtain ⟨r₁, hr₁, hl⟩ := hj.undoes.saved_live hm
      obtain rfl := Option.some.inj (hr₁.symm.trans hr)
      exact ⟨r, hj.undoes.saved hm hi, hl⟩
    · exact ⟨r', (hj.undoes.kept (fun r hr => hm ⟨r, hr⟩) hi).trans hr, rfl⟩

theorem Without.evolves {t₀ : Tables F} (hw : Without u t t') (hj : Journals t₀ u t) :
    Evolves t₀ t' where
  linked _ := hw.linked hj
  next_le k := by
    rw [hw.rest]
    exact hj.next_le k
  links hp hr := by
    rw [hw.cell] at hr
    split at hr
    · exact absurd hr (by simp)
    · exact hj.evolves.links hp hr

theorem Evolves.congr {t'' : Tables F} (h : Evolves t t') (hs : t''.store = t'.store)
    (hr : t''.rest = t'.rest) : Evolves t t'' := by
  refine ⟨fun hl => ?_, fun k => ?_, fun {k p r'} hp hcell => ?_⟩
  · rw [hs]
    exact h.linked hl
  · rw [hr]
    exact h.next_le k
  · rw [hs] at hcell
    exact h.links hp hcell

/-- A committed transaction does not relink a row either. -/
theorem Tx.Journaled.commit_evolves {α : Type} {x : Tx F α} (hx : x.Journaled)
    (ht : t.store.Linked (schema F)) {free : Option HashOrder} {a : α}
    (hrun : x.commit free t = some (a, t')) : Evolves t t' := by
  have hnull : ∀ a' t₁, x.commit none t = some (a', t₁) → Evolves t t₁ := by
    intro a' t₁ h₁
    obtain ⟨r', hr', heq⟩ := Option.map_eq_some_iff.mp h₁
    have hrel := hx t ht
    rw [hr'] at hrel
    generalize x ⟨t, some none⟩ = r at hrel
    cases hrel with
    | some h =>
      obtain ⟨-, o, -, -, hj, hw, -⟩ := h
      obtain rfl := (Prod.mk.inj heq).2
      exact hw.evolves hj
  cases free with
  | none => exact hnull a t' hrun
  | some h =>
    have hrel := hx.commit ht h
    rw [hrun] at hrel
    cases hnone : x.commit none t with
    | none =>
      rw [hnone] at hrel
      nomatch hrel
    | some r =>
      rw [hnone] at hrel
      cases hrel with
      | some h => exact (hnull r.1 r.2 hnone).congr h.2.1 h.2.2

/-! ### The loops of `applyUndo`, when they do not fail -/

/-- A cell is freed, and perhaps some entries are cut. -/
theorem evolves_of_erase {k : Kind} {p : Ptr} {s : Store Kind (Row F) Index ℤ}
    (h : t.store.erase (schema F) (k, p) = some s) (hstore : t'.store = s)
    (hnext : t'.rest.next = t.rest.next) : Evolves t t' := by
  obtain ⟨r, ls, hr, hls, hidx, rfl⟩ := Op.links_of_erase h
  have hlinks : t.store.Links (schema F) k p ls := ⟨r, hr, hls⟩
  refine ⟨fun hl => ?_, fun k' => by rw [hnext], fun {k' q r'} hq hr' => ?_⟩
  · rw [hstore]
    refine (hl.unlink hlinks hidx).free fun l hk hl' => ?_
    -- an entry that leads to the row is among its links, and those are cut
    rw [Store.setIndex_index] at hl'
    split at hl'
    · exact absurd hl' (by simp)
    · next hout =>
      obtain ⟨ls', hls', hin, -⟩ := hl l p hl'
      rw [hk] at hls'
      exact hout (hlinks.unique hls' ▸ hin)
  · rw [hstore] at hr'
    by_cases heq : k' = k ∧ q = p
    · obtain ⟨rfl, rfl⟩ := heq
      rw [Store.setCell_cell_same] at hr'
      exact absurd hr' (by simp)
    · rw [Store.setCell_cell_of_ne _ _ heq] at hr'
      exact ⟨r', hr', rfl⟩

/-- The erasure fails when the row cannot be erased from the store. -/
def ErasesOnly (x : Op F Unit) (k : Kind) (p : Ptr) : Prop :=
  ∀ (t t' : Tables F), x t = some ((), t') → (t.store.erase (schema F) (k, p)).isSome

theorem erase_isSome {k : Kind} {p : Ptr} {r : Row F k} {ls : List (Index × ℤ)}
    (hr : t.store.cell k p = some r) (hls : rowLinks k r = some ls)
    (hidx : ∀ l ∈ ls, t.store.index l.1 l.2 = some p) :
    (t.store.erase (schema F) (k, p)).isSome := by
  rw [Store.erase_of_links ⟨r, hr, hls⟩ hidx]
  rfl

theorem deref_eq_some {k : Kind} {p : Ptr} {r : Row F k} (h : Op.deref k (some p) t = some (r, t')) :
    t.store.cell k p = some r ∧ t = t' := by
  rw [Op.deref_apply] at h
  obtain ⟨r', hr', heq⟩ := Option.map_eq_some_iff.mp h
  obtain ⟨rfl, rfl⟩ := Prod.mk.inj heq
  exact ⟨hr', rfl⟩

theorem erase_eq_some {n : TreeName} {key : ℤ} {p : Ptr}
    (h : Op.erase n key p t = some ((), t')) : t.store.index (.tree n) key = some p := by
  by_contra hne
  rw [Op.erase_of_not_found t hne] at h
  exact absurd h (by simp)

theorem eraseOrderLine_only (p : Ptr) : ErasesOnly (F := F) (Op.eraseOrderLine p) .orderLine p := by
  intro t t' h
  rw [Op.eraseOrderLine] at h
  obtain ⟨ol, t₁, hread, h⟩ := bind_eq_some h
  obtain ⟨hol, rfl⟩ := deref_eq_some hread
  obtain ⟨key, t₂, hlift, h⟩ := bind_eq_some h
  obtain ⟨hkey, rfl⟩ := lift_eq_some hlift
  obtain ⟨_, t₃, herase, -⟩ := bind_eq_some h
  refine erase_isSome hol (Option.map_eq_some_iff.mpr ⟨key, hkey, rfl⟩) fun l hl => ?_
  rw [List.mem_singleton.mp hl]
  exact erase_eq_some herase

theorem eraseOrder_only (p : Ptr) : ErasesOnly (F := F) (Op.eraseOrder p) .order p := by
  intro t t' h
  rw [Op.eraseOrder] at h
  obtain ⟨o, t₁, hread, h⟩ := bind_eq_some h
  obtain ⟨ho, rfl⟩ := deref_eq_some hread
  obtain ⟨primary, t₂, hlift, h⟩ := bind_eq_some h
  obtain ⟨hprim, rfl⟩ := lift_eq_some hlift
  obtain ⟨_, t₃, herase, h⟩ := bind_eq_some h
  obtain ⟨secondary, t₄, hlift', h⟩ := bind_eq_some h
  obtain ⟨hsec, rfl⟩ := lift_eq_some hlift'
  obtain ⟨_, t₅, herase', -⟩ := bind_eq_some h
  have hidx := erase_eq_some herase
  have hidx' := erase_eq_some herase'
  -- cutting the first entry does not touch the second
  obtain ⟨t₃', hrun, hstore, -⟩ := Op.erase_of_found _ hidx
  obtain rfl := (Prod.mk.inj (Option.some.inj (hrun.symm.trans herase))).2
  rw [hstore] at hidx'
  have hidx' := (Store.setIndex_index _ _ _ (Index.tree .ordersByCustomer, secondary)).symm.trans hidx'
  rw [if_neg (by simp)] at hidx'
  refine erase_isSome ho (Option.bind_eq_some_iff.mpr
    ⟨primary, hprim, Option.map_eq_some_iff.mpr ⟨secondary, hsec, rfl⟩⟩) fun l hl => ?_
  rcases List.mem_pair.mp hl with rfl | rfl
  · exact hidx
  · exact hidx'

theorem eraseNewOrder_only (p : Ptr) : ErasesOnly (F := F) (Op.eraseNewOrder p) .newOrder p := by
  intro t t' h
  rw [Op.eraseNewOrder] at h
  obtain ⟨no, t₁, hread, h⟩ := bind_eq_some h
  obtain ⟨hno, rfl⟩ := deref_eq_some hread
  obtain ⟨key, t₂, hlift, h⟩ := bind_eq_some h
  obtain ⟨hkey, rfl⟩ := lift_eq_some hlift
  obtain ⟨t₃, t₄, hget, h⟩ := bind_eq_some h
  obtain ⟨rfl, rfl⟩ := Prod.mk.inj (Option.some.inj hget)
  obtain ⟨_, t₅, hassert, -⟩ := bind_eq_some h
  rw [assert] at hassert
  split at hassert
  · next hfind =>
    refine erase_isSome hno (Option.map_eq_some_iff.mpr ⟨key, hkey, rfl⟩) fun l hl => ?_
    rw [List.mem_singleton.mp hl]
    exact hfind
  · exact absurd hassert (by simp)

/-- An erasure that has not failed. -/
theorem evolves_of_erases {x : Op F Unit} {k : Kind} {p : Ptr} (hx : Op.Erases x k p)
    (honly : ErasesOnly x k p) (h : x t = some ((), t')) : Evolves t t' := by
  obtain ⟨s, hs⟩ := Option.isSome_iff_exists.mp (honly t t' h)
  obtain ⟨t₁, hrun, hstore, hrest⟩ := hx t s hs
  obtain rfl := (Prod.mk.inj (Option.some.inj (hrun.symm.trans h))).2
  exact evolves_of_erase hs hstore (by rw [hrest])

theorem eraseHistory_evolves {p : Ptr} (h : Op.eraseHistory p t = some ((), t')) :
    Evolves t t' := by
  obtain ⟨_, t₁, hfrom, hdel⟩ := bind_eq_some h
  obtain ⟨l, -, heq⟩ := Option.map_eq_some_iff.mp hfrom
  obtain rfl := (Prod.mk.inj heq).2
  by_cases hlive : (t.store.cell .history p).isSome
  · obtain ⟨r, hr⟩ := Option.isSome_iff_exists.mp hlive
    obtain ⟨t₂, hrun, hstore, hrest⟩ :=
      Op.delete_of_live ({ t with history := l } : Tables F) (k := .history) (p := p) hlive
    obtain rfl := (Prod.mk.inj (Option.some.inj (hrun.symm.trans hdel))).2
    have hlinks : t.store.Links (schema F) .history p [] := ⟨r, hr, rfl⟩
    refine evolves_of_erase (Store.erase_of_links hlinks fun l hl => absurd hl List.not_mem_nil) ?_
      ((congrArg Rest.next hrest).trans rfl)
    rw [hstore]
    simp only [Store.setIndex, List.not_mem_nil, if_false]
    rfl
  · have hdead : t.store.cell .history p = none := by simpa using hlive
    rw [Op.delete_of_dead ({ t with history := l } : Tables F) hdead] at hdel
    exact absurd hdel (by simp)

theorem insertNewOrderObject_evolves {p : Ptr} (h : Op.insertNewOrderObject p t = some ((), t')) :
    Evolves t t' := by
  rw [Op.insertNewOrderObject] at h
  obtain ⟨no, t₁, hread, h⟩ := bind_eq_some h
  obtain ⟨hno, rfl⟩ := deref_eq_some hread
  obtain ⟨key, t₂, hlift, h⟩ := bind_eq_some h
  obtain ⟨hkey, rfl⟩ := lift_eq_some hlift
  split at h
  · next hnone =>
    obtain rfl := (Prod.mk.inj (Option.some.inj h)).2
    refine ⟨fun hl => ?_, fun _ => le_rfl, fun _ hr => ⟨_, hr, rfl⟩⟩
    rw [Op.store_insertNewOrder]
    refine hl.relink (k := .newOrder) ⟨no, hno, Option.map_eq_some_iff.mpr ⟨key, hkey, rfl⟩⟩
      fun l hl => ?_
    rw [List.mem_singleton.mp hl]
    exact hnone
  · exact absurd h (by simp)

/-- Writing an image. -/
theorem assign_evolves {k : Kind} {p : Ptr} {r : Row F k}
    (hl : ∀ r', t.store.cell k p = some r' → rowLinks k r = rowLinks k r')
    (h : Op.assign k (some p) r t = some ((), t')) : Evolves t t' := by
  cases hr : t.store.cell k p with
  | none =>
    rw [Op.assign_of_dead t hr] at h
    exact absurd h (by simp)
  | some r' =>
    obtain ⟨t₁, hrun, hstore, hrest⟩ := Op.assign_of_live t (by rw [hr]; rfl) r
    obtain rfl := (Prod.mk.inj (Option.some.inj (hrun.symm.trans h))).2
    refine ⟨fun hlinked => ?_, fun k' => by rw [hrest], fun {k' q r''} hq hr'' => ?_⟩
    · rw [hstore]
      exact hlinked.write hr (hl r' hr)
    · rw [hstore] at hr''
      by_cases heq : k' = k ∧ q = p
      · obtain ⟨rfl, rfl⟩ := heq
        rw [Store.setCell_cell_same] at hr''
        obtain rfl := Option.some.inj hr''
        exact ⟨r', hr, hl r' hr⟩
      · rw [Store.setCell_cell_of_ne _ _ heq] at hr''
        exact ⟨r'', hr'', rfl⟩

/-- A loop that has not failed. -/
theorem forM_evolves {ι : Type} {x : ι → Op F Unit} {l : List ι}
    (hx : ∀ i ∈ l, ∀ t₁ t₂, Evolves t t₁ → x i t₁ = some ((), t₂) → Evolves t₁ t₂)
    (h : l.forM x t = some ((), t')) : Evolves t t' := by
  refine Triple.forM (I := Evolves t) (fun i hi t₁ h₁ _ t₂ hrun => ?_) t (Evolves.refl t) () t' h
  exact h₁.trans (hx i hi t₁ t₂ h₁ hrun)

theorem restoreFromMap_evolves {h : HashOrder} {k : Kind} (hu : Images u t)
    (hrun : Op.restoreFromMap h k (u.modified k) t = some ((), t')) : Evolves t t' := by
  refine forM_evolves (fun e he t₁ t₂ hev hrun => ?_) hrun
  exact assign_evolves ((hu.evolves hev) ((h.perm _ _).mem_iff.mp he)).2 hrun

theorem eraseTuple_evolves {h : HashOrder} {k : Kind} {l : List Ptr} {erase : Ptr → Op F Unit}
    (hx : ∀ p, Op.Erases (erase p) k p) (honly : ∀ p, ErasesOnly (erase p) k p)
    (hrun : Op.eraseTuple h l erase t = some ((), t')) : Evolves t t' :=
  forM_evolves (fun p _ _ _ _ hrun => evolves_of_erases (hx p) (honly p) hrun) hrun

/-- **Undoing relinks no row** that lives on, whenever it is done. -/
theorem applyUndo_evolves {h : HashOrder} (hu : Images u t)
    (hrun : Op.applyUndo h u t = some ((), t')) : Evolves t t' := by
  obtain ⟨_, t₁, h₁, hrun⟩ := bind_eq_some hrun
  have e₁ := restoreFromMap_evolves hu h₁
  obtain ⟨_, t₂, h₂, hrun⟩ := bind_eq_some hrun
  have e₂ := e₁.trans (restoreFromMap_evolves (hu.evolves e₁) h₂)
  obtain ⟨_, t₃, h₃, hrun⟩ := bind_eq_some hrun
  have e₃ := e₂.trans (restoreFromMap_evolves (hu.evolves e₂) h₃)
  obtain ⟨_, t₄, h₄, hrun⟩ := bind_eq_some hrun
  have e₄ := e₃.trans (restoreFromMap_evolves (hu.evolves e₃) h₄)
  obtain ⟨_, t₅, h₅, hrun⟩ := bind_eq_some hrun
  have e₅ := e₄.trans (restoreFromMap_evolves (hu.evolves e₄) h₅)
  obtain ⟨_, t₆, h₆, hrun⟩ := bind_eq_some hrun
  have e₆ := e₅.trans (restoreFromMap_evolves (hu.evolves e₅) h₆)
  obtain ⟨_, t₇, h₇, hrun⟩ := bind_eq_some hrun
  have e₇ := e₆.trans (eraseTuple_evolves Op.eraseOrder_erases eraseOrder_only h₇)
  obtain ⟨_, t₈, h₈, hrun⟩ := bind_eq_some hrun
  have e₈ := e₇.trans (eraseTuple_evolves Op.eraseOrderLine_erases eraseOrderLine_only h₈)
  obtain ⟨_, t₉, h₉, hrun⟩ := bind_eq_some hrun
  have e₉ := e₈.trans (eraseTuple_evolves Op.eraseNewOrder_erases eraseNewOrder_only h₉)
  obtain ⟨_, t₁₀, h₁₀, hrun⟩ := bind_eq_some hrun
  have e₁₀ := e₉.trans (forM_evolves (fun p _ _ _ _ hrun => eraseHistory_evolves hrun) h₁₀)
  exact e₁₀.trans (forM_evolves (fun p _ _ _ _ hrun => insertNewOrderObject_evolves hrun) hrun)

/-! ### Whole runs -/

/-- What may be done to the tables. -/
inductive Action (F : Type)
  | insert (i : Insertion F)
  /-- Execute a transaction whose `undo` is null, or whose buffer is freed. -/
  | commit (free : Option HashOrder) (x : Txn F)
  /-- Execute a transaction with an undo buffer of its own. -/
  | execute (x : Txn F)
  /-- Apply the buffer of the last transaction that has not been undone. -/
  | applyUndo (h : HashOrder)

variable [Money F]

/-- Do it, with the buffers that have not been applied at hand. -/
def Action.step (s : Tables F × List (TPCCUndo F)) : Action F → Option (Tables F × List (TPCCUndo F))
  | insert i => (i.exec s.1).map fun r => (r.2, s.2)
  | commit free x => (x.exec.commit free s.1).map fun r => (r.2, s.2)
  | execute x => x.push s
  | applyUndo h =>
    match s.2 with
    | [] => none
    | u :: us => (Op.applyUndo h u s.1).map fun r => (r.2, us)

/-- The tables are in agreement, and the buffers are about rows linked as they were. -/
def Kept (s : Tables F × List (TPCCUndo F)) : Prop :=
  s.1.store.Linked (schema F) ∧ ∀ u ∈ s.2, Images u s.1

omit [Money F] in
theorem Kept.evolves {s : Tables F × List (TPCCUndo F)} {us : List (TPCCUndo F)} (h : Kept s)
    (he : Evolves s.1 t) (hus : ∀ u ∈ us, u ∈ s.2) : Kept (t, us) :=
  ⟨he.linked h.1, fun u hu => (h.2 u (hus u hu)).evolves he⟩

/-- **A step keeps the agreement.** -/
theorem Action.step_kept {s s' : Tables F × List (TPCCUndo F)} (h : Kept s) {a : Action F}
    (hs : a.step s = some s') : Kept s' := by
  cases a with
  | insert i =>
    obtain ⟨r, hrun, rfl⟩ := Option.map_eq_some_iff.mp hs
    exact h.evolves (Insertion.grows hrun).evolves fun _ => id
  | commit free x =>
    obtain ⟨r, hrun, rfl⟩ := Option.map_eq_some_iff.mp hs
    exact h.evolves (x.journaled.commit_evolves h.1 hrun) fun _ => id
  | execute x =>
    obtain ⟨r, hrun, rfl⟩ := Option.map_eq_some_iff.mp hs
    obtain ⟨o, c', ho, -, hj, -⟩ := Txn.exec_own_eq_some h.1 (c := r.2) hrun
    have hb : r.2.buffer = o := by rw [Call.buffer, ho]; rfl
    refine ⟨hj.linked, fun u hu => ?_⟩
    rcases List.mem_append.mp hu with hu | hu
    · rw [hb, Option.mem_toList] at hu
      obtain rfl := hu
      exact hj.images
    · exact (h.2 u hu).evolves hj.evolves
  | applyUndo order =>
    obtain ⟨t, us⟩ := s
    cases us with
    | nil => exact absurd hs (by simp [step])
    | cons u us =>
      obtain ⟨r, hrun, rfl⟩ := Option.map_eq_some_iff.mp hs
      have he : Evolves t r.2 := applyUndo_evolves (h.2 u List.mem_cons_self) hrun
      exact h.evolves he fun _ hu => List.mem_cons_of_mem _ hu

/-- A run keeps the agreement. -/
theorem Action.run_kept {as : List (Action F)} {s : Tables F × List (TPCCUndo F)}
    (h : Run.result Action.step (Tables.empty, []) as = some s) : Kept s := by
  induction as using List.reverseRecOn generalizing s with
  | nil =>
    obtain rfl := Option.some.inj h
    exact ⟨Tables.empty_wellFormed.linked, fun _ hu => absurd hu List.not_mem_nil⟩
  | append_singleton as a ih =>
    rw [Run.result_snoc] at h
    obtain ⟨s₁, h₁, h⟩ := Option.bind_eq_some_iff.mp h
    exact Action.step_kept (ih h₁) h

/-! ### What agreement means -/

/-- Something in the tree leads to the row. -/
def Tables.Holds (t : Tables F) (n : TreeName) (p : Ptr) : Prop := ∃ key, (t.tree n).find key = some p

/-- **The order tables and their indexes agree.** -/
structure Tables.Agree (t : Tables F) : Prop where
  /-- The two indexes hold the same orders. -/
  sameOrders (p : Ptr) : t.Holds .orders p ↔ t.Holds .ordersByCustomer p
  /-- Every row is where its fields say. -/
  orders {key : ℤ} {p : Ptr} : (t.tree .orders).find key = some p →
    ∃ o : Order, t.cell .order p = some o ∧ makeOrderKey .checked o.oWId o.oDId o.oId = some key
  ordersByCustomer {key : ℤ} {p : Ptr} : (t.tree .ordersByCustomer).find key = some p →
    ∃ o : Order, t.cell .order p = some o ∧
      makeOrderByCustomerKey .checked o.oWId o.oDId o.oCId o.oId = some key
  orderlines {key : ℤ} {p : Ptr} : (t.tree .orderlines).find key = some p →
    ∃ ol : OrderLine F, t.cell .orderLine p = some ol ∧
      makeOrderLineKey .checked ol.olWId ol.olDId ol.olOId ol.olNumber = some key
  neworders {key : ℤ} {p : Ptr} : t.neworders.find key = some p →
    ∃ no : NewOrder, t.cell .newOrder p = some no ∧
      makeNewOrderKey .checked no.noWId no.noDId no.noOId = some key
  /-- What is looked for is found, and nothing else is. -/
  findOrder {w d o : ℤ} : validWarehouse w → validDistrict d → 1 ≤ o → o ≤ 143164 →
    ∃ r, Op.findOrder w d o t = some (r, t) ∧ ∀ p, r = some p ↔ t.Holds .orders p ∧
      ∃ order : Order, t.cell .order p = some order ∧
        order.oWId = w ∧ order.oDId = d ∧ order.oId = o
  findOrderLine {w d o n : ℤ} : validWarehouse w → validDistrict d → 1 ≤ o → o ≤ 143164 →
    validLine n → ∃ r, Op.findOrderLine w d o n t = some (r, t) ∧
      ∀ p, r = some p ↔ t.Holds .orderlines p ∧
        ∃ ol : OrderLine F, t.cell .orderLine p = some ol ∧
          ol.olWId = w ∧ ol.olDId = d ∧ ol.olOId = o ∧ ol.olNumber = n
  findNewOrder {w d o : ℤ} : validWarehouse w → validDistrict d → 1 ≤ o → o ≤ 143164 →
    ∃ r, Op.findNewOrder w d o t = some (r, t) ∧
      ∀ p, r = some p ↔ (∃ key, t.neworders.find key = some p) ∧
        ∃ no : NewOrder, t.cell .newOrder p = some no ∧
          no.noWId = w ∧ no.noDId = d ∧ no.noOId = o

omit [Money F] in
/-- An order line. -/
theorem orderLine_of_find {key : ℤ} {p : Ptr} (h : t.store.Linked (schema F))
    (hp : (t.tree .orderlines).find key = some p) :
    ∃ ol : OrderLine F, t.cell .orderLine p = some ol ∧
      makeOrderLineKey .checked ol.olWId ol.olDId ol.olOId ol.olNumber = some key := by
  obtain ⟨ls, ⟨ol, hol, hls⟩, hl, -⟩ := h (.tree .orderlines, key) p hp
  obtain ⟨key', hkey', rfl⟩ := Option.map_eq_some_iff.mp hls
  obtain rfl := (Prod.mk.inj (List.mem_singleton.mp hl)).2
  exact ⟨ol, hol, hkey'⟩

theorem validOrder_of_le {o : ℤ} (h : 1 ≤ o) (h' : o ≤ 143164) : validOrder o :=
  ⟨h, h'.trans (by decide)⟩

omit [Money F] in
/-- An order, from either index. -/
theorem order_of_find {n : TreeName} (hn : n = .orders ∨ n = .ordersByCustomer) {key : ℤ} {p : Ptr}
    (h : t.store.Linked (schema F)) (hp : (t.tree n).find key = some p) :
    ∃ (o : Order) (primary secondary : ℤ), t.cell .order p = some o ∧
      makeOrderKey .checked o.oWId o.oDId o.oId = some primary ∧
      makeOrderByCustomerKey .checked o.oWId o.oDId o.oCId o.oId = some secondary ∧
      (n = .orders ∧ key = primary ∨ n = .ordersByCustomer ∧ key = secondary) ∧
      (t.tree .orders).find primary = some p ∧
      (t.tree .ordersByCustomer).find secondary = some p := by
  have hkind : Index.kind (.tree n) = .order := by
    rcases hn with rfl | rfl <;> rfl
  obtain ⟨ls, hls, hl, hall⟩ := h (.tree n, key) p hp
  obtain ⟨o, ho, hls⟩ : t.store.Links (schema F) .order p ls := hkind ▸ hls
  obtain ⟨primary, hprim, hls⟩ := Option.bind_eq_some_iff.mp hls
  obtain ⟨secondary, hsec, rfl⟩ := Option.map_eq_some_iff.mp hls
  refine ⟨o, primary, secondary, ho, hprim, hsec, ?_, hall _ List.mem_cons_self,
    hall _ (List.mem_cons_of_mem _ (List.mem_singleton_self _))⟩
  simpa using hl

omit [Money F] in
/-- **Linked tables agree.** -/
theorem Tables.Agree.of_linked (h : t.store.Linked (schema F)) : t.Agree where
  sameOrders p := by
    constructor
    · rintro ⟨key, hp⟩
      obtain ⟨o, primary, secondary, -, -, -, -, -, hs⟩ := order_of_find (Or.inl rfl) h hp
      exact ⟨secondary, hs⟩
    · rintro ⟨key, hp⟩
      obtain ⟨o, primary, secondary, -, -, -, -, hs, -⟩ := order_of_find (Or.inr rfl) h hp
      exact ⟨primary, hs⟩
  orders hp := by
    obtain ⟨o, primary, secondary, ho, hprim, -, hkey, -⟩ := order_of_find (Or.inl rfl) h hp
    obtain ⟨-, rfl⟩ := hkey.resolve_right (by simp)
    exact ⟨o, ho, hprim⟩
  ordersByCustomer hp := by
    obtain ⟨o, primary, secondary, ho, -, hsec, hkey, -⟩ := order_of_find (Or.inr rfl) h hp
    obtain ⟨-, rfl⟩ := hkey.resolve_left (by simp)
    exact ⟨o, ho, hsec⟩
  orderlines := orderLine_of_find h
  neworders := newOrder_of_index h
  findOrder {w d o} hw hd ho ho' := by
    have hkey : makeOrderKey .checked w d o = some ((o * 10 + d) * 100 + w) :=
      makeOrderKey_of_valid _ hw hd (validOrder_of_le ho ho') (orderKeyFits_of_le ho' w d)
    refine ⟨(t.tree .orders).find ((o * 10 + d) * 100 + w), ?_, fun p => ⟨fun hp => ?_, ?_⟩⟩
    · simp only [Op.findOrder, hkey, bind_apply, lift_apply, Option.map_some, Option.bind_some]
      rfl
    · obtain ⟨order, primary, secondary, hcell, hprim, -, hkey', -⟩ :=
        order_of_find (Or.inl rfl) h hp
      obtain ⟨-, rfl⟩ := hkey'.resolve_right (by simp)
      exact ⟨⟨_, hp⟩, order, hcell, makeOrderKey_inj hprim hkey⟩
    · rintro ⟨⟨key, hp⟩, order, hcell, rfl, rfl, rfl⟩
      obtain ⟨order', primary, secondary, hcell', hprim, -, -, hp', -⟩ :=
        order_of_find (Or.inl rfl) h hp
      obtain rfl := Option.some.inj (hcell.symm.trans hcell')
      obtain rfl := Option.some.inj (hkey.symm.trans hprim)
      exact hp'
  findOrderLine {w d o n} hw hd ho ho' hn := by
    have hkey : makeOrderLineKey .checked w d o n = some (((o * 10 + d) * 100 + w) * 15 + n) :=
      makeOrderLineKey_of_valid _ hw hd (validOrder_of_le ho ho') hn (orderLineKeyFits_of_le ho' w d n)
    refine ⟨(t.tree .orderlines).find (((o * 10 + d) * 100 + w) * 15 + n), ?_,
      fun p => ⟨fun hp => ?_, ?_⟩⟩
    · simp only [Op.findOrderLine, hkey, bind_apply, lift_apply, Option.map_some, Option.bind_some]
      rfl
    · obtain ⟨ol, hcell, hol⟩ := orderLine_of_find h hp
      exact ⟨⟨_, hp⟩, ol, hcell, makeOrderLineKey_inj hol hkey⟩
    · rintro ⟨⟨key, hp⟩, ol, hcell, rfl, rfl, rfl, rfl⟩
      obtain ⟨ol', hcell', hol⟩ := orderLine_of_find h hp
      obtain rfl := Option.some.inj (hcell.symm.trans hcell')
      obtain rfl := Option.some.inj (hkey.symm.trans hol)
      exact hp
  findNewOrder {w d o} hw hd ho ho' := by
    have hkey : makeNewOrderKey .checked w d o = some ((w * 100 + d) * 2 ^ 32 + o) :=
      makeNewOrderKey_of_valid _ hw hd (validOrder_of_le ho ho')
    refine ⟨t.neworders.find ((w * 100 + d) * 2 ^ 32 + o), ?_, fun p => ⟨fun hp => ?_, ?_⟩⟩
    · simp only [Op.findNewOrder, hkey, bind_apply, lift_apply, Option.map_some, Option.bind_some]
    · obtain ⟨no, hcell, hno⟩ := newOrder_of_index h hp
      exact ⟨⟨_, hp⟩, no, hcell, makeNewOrderKey_inj hno hkey⟩
    · rintro ⟨⟨key, hp⟩, no, hcell, rfl, rfl, rfl⟩
      obtain ⟨no', hcell', hno⟩ := newOrder_of_index h hp
      obtain rfl := Option.some.inj (hcell.symm.trans hcell')
      obtain rfl := Option.some.inj (hkey.symm.trans hno)
      exact hp

/-- **From the empty tables on, tables and indexes agree**, whatever is inserted, executed
and undone. -/
theorem tables_agree {as : List (Action F)} {us : List (TPCCUndo F)}
    (h : Run.result Action.step (Tables.empty, []) as = some (t, us)) : t.Agree :=
  Tables.Agree.of_linked (Action.run_kept h).1

/-- The small database is filled, an order is placed, undone and placed again. -/
theorem tables_agree_again :
    ∃ s, Run.result Action.step (Tables.empty, []) (smallDatabase.map Action.insert ++
        [.execute smallOrder, .applyUndo .asInserted, .execute smallOrder]) = some s ∧ s.1.Agree := by
  have hrun : (Run.result Action.step (Tables.empty, []) (smallDatabase.map Action.insert ++
      [.execute smallOrder, .applyUndo .asInserted, .execute smallOrder])).isSome := by
    decide +kernel
  obtain ⟨s, hrun⟩ := Option.isSome_iff_exists.mp hrun
  exact ⟨s, hrun, tables_agree hrun⟩

end TpccBench
