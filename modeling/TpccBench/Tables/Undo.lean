import TpccBench.Lib.Run
import TpccBench.Tables.Insertions
import TpccBench.Tables.WithUndo

/-!
# What `applyUndo` undoes

The loops of `applyUndo` are the three loops of `TpccBench.Log.undo`, cut up by the kinds of
the rows, with the history rows last. A buffer that undoes the way from some tables therefore
leads back to their contents (`TpccBench.Journals.applyUndo`), whatever the order of its
hash tables.

Two ways to use buffers are followed over whole runs. When every transaction has its own
and they are applied last to first, all is undone (`TpccBench.undo_stack`). When all
transactions extend the same one, all is undone unless a delivery has taken a new-order row
of the run itself (`TpccBench.undo_extended`); what happens if one has is followed in
`TpccBench/Tables/OwnDelivery.lean`.
-/

namespace TpccBench

open Prog

variable {F : Type}

/-! ### Contents -/

/-- What the tables hold, as far as an operation can tell, and without the addresses
that are handed out next. -/
@[ext]
structure Contents (F : Type) where
  store : Store Kind (Row F) Index ℤ
  items : List (Item F)
  customersByName : List Ptr
  history : List Ptr

def Tables.contents (t : Tables F) : Contents F where
  store := t.store
  items := t.items
  customersByName := t.customersByName
  history := t.history

theorem Tables.contents_eq {t t' : Tables F} (hs : t.store = t'.store) (hr : t.rest = t'.rest) :
    t.contents = t'.contents :=
  Contents.ext hs (congrArg Rest.items hr) (congrArg Rest.customersByName hr)
    (congrArg Rest.history hr)

theorem Tables.WellFormed.congr {t t' : Tables F} (h : t.WellFormed)
    (hc : t'.contents = t.contents) : t'.WellFormed := by
  have hstore : t'.store = t.store := congrArg Contents.store hc
  have hname : t'.customersByName = t.customersByName := congrArg Contents.customersByName hc
  have hhist : t'.history = t.history := congrArg Contents.history hc
  refine ⟨?_, ?_, ?_⟩
  · rw [hstore]
    exact h.linked
  · rw [hstore, hname]
    exact h.customersByName
  · rw [hstore, hhist]
    exact h.history

theorem Journals.congr {t₀ t t' : Tables F} {u : TPCCUndo F} (h : Journals t₀ u t)
    (hc : t'.contents = t.contents) (hn : ∀ k, t.rest.next k ≤ t'.rest.next k) :
    Journals t₀ u t' := by
  have hstore : t'.store = t.store := congrArg Contents.store hc
  exact
    { undoes := by rw [hstore]; exact h.undoes
      linked := by rw [hstore]; exact h.linked
      items := (congrArg Contents.items hc).trans h.items
      customersByName := (congrArg Contents.customersByName hc).trans h.customersByName
      history := by
        have hhist : t'.rest.history = t.rest.history := congrArg Contents.history hc
        rw [hhist]
        exact h.history
      modified := h.modified
      inserted := h.inserted
      deleted := h.deleted
      next_le := fun k => (h.next_le k).trans (hn k)
      next_le_inserted := h.next_le_inserted }

/-- Nothing has to be undone. -/
theorem Journals.refl {t : Tables F} (h : t.store.Linked (schema F)) : Journals t Log.empty t where
  undoes := Log.Undoes.refl _
  linked := h
  items := rfl
  customersByName := rfl
  history := ⟨[], (List.append_nil _).symm, List.Perm.refl _⟩
  modified _ _ := rfl
  inserted _ _ := rfl
  deleted _ _ := rfl
  next_le _ := le_rfl
  next_le_inserted _ _ hp := absurd hp List.not_mem_nil

/-- An empty buffer has nothing to undo. -/
theorem Journals.contents {t₀ t : Tables F} (h : Journals t₀ Log.empty t) : t.contents = t₀.contents := by
  obtain ⟨l, hl, hperm⟩ := h.history
  obtain rfl : l = [] := hperm.eq_nil
  rw [List.append_nil] at hl
  exact Contents.ext h.undoes.eq_of_empty h.items h.customersByName hl

/-! ### The loops of `applyUndo` -/

/-- A loop over operations that do what is done to the store. -/
theorem forM_apply {ι : Type} {x : ι → Op F Unit}
    {f : Store Kind (Row F) Index ℤ → ι → Option (Store Kind (Row F) Index ℤ)}
    (hx : ∀ i t s, f t.store i = some s →
      ∃ t', x i t = some ((), t') ∧ t'.store = s ∧ t'.rest = t.rest) (l : List ι)
    {t : Tables F} {s : Store Kind (Row F) Index ℤ} (h : l.foldlM f t.store = some s) :
    ∃ t', l.forM x t = some ((), t') ∧ t'.store = s ∧ t'.rest = t.rest := by
  induction l generalizing t with
  | nil => exact ⟨t, rfl, Option.some.inj h, rfl⟩
  | cons i l ih =>
    rw [List.foldlM_cons] at h
    obtain ⟨s₁, hs₁, h⟩ := Option.bind_eq_some_iff.mp h
    obtain ⟨t₁, hrun₁, hstore₁, hrest₁⟩ := hx i t s₁ hs₁
    rw [← hstore₁] at h
    obtain ⟨t₂, hrun₂, hstore₂, hrest₂⟩ := ih h
    refine ⟨t₂, ?_, hstore₂, hrest₂.trans hrest₁⟩
    rw [forM_cons_apply, hrun₁]
    exact hrun₂

/-- Restoring. -/
theorem restoreFromMap_apply (h : HashOrder) (k : Kind) (map : List (Ptr × Row F k)) {t : Tables F}
    {s : Store Kind (Row F) Index ℤ}
    (hs : ((h.iter _ map).map fun e => (⟨k, e⟩ : Σ k, ℕ × Row F k)).foldlM Store.restore t.store =
      some s) :
    ∃ t', Op.restoreFromMap h k map t = some ((), t') ∧ t'.store = s ∧ t'.rest = t.rest := by
  rw [List.foldlM_map] at hs
  refine forM_apply (fun e t s hs => ?_) _ hs
  by_cases hlive : (t.store.cell k e.1).isSome
  · rw [Store.restore, if_pos hlive] at hs
    obtain rfl := Option.some.inj hs
    exact Op.assign_of_live t hlive e.2
  · rw [Store.restore, if_neg hlive] at hs
    exact absurd hs (by simp)

/-- Erasing. -/
theorem eraseTuple_apply (h : HashOrder) {k : Kind} (set : List Ptr) {erase : Ptr → Op F Unit}
    (herase : ∀ p, Op.Erases (erase p) k p) {t : Tables F} {s : Store Kind (Row F) Index ℤ}
    (hs : ((h.iter _ set).map fun p => (k, p)).foldlM (Store.erase (schema F)) t.store = some s) :
    ∃ t', Op.eraseTuple h set erase t = some ((), t') ∧ t'.store = s ∧ t'.rest = t.rest := by
  rw [List.foldlM_map] at hs
  exact forM_apply (fun p t s hs => herase p t s hs) _ hs

/-- Erasing history rows, which leaves the others in order. -/
theorem eraseHistory_all {l : List Ptr} (hnd : l.Nodup) {t : Tables F} {h₀ h₁ : List Ptr}
    {s : Store Kind (Row F) Index ℤ} (hh : t.history = h₀ ++ h₁) (hperm : h₁.Perm l)
    (hs : (l.map fun p => (Kind.history, p)).foldlM (Store.erase (schema F)) t.store = some s) :
    ∃ t', l.forM Op.eraseHistory t = some ((), t') ∧ t'.store = s ∧
      t'.rest = { t.rest with history := h₀ } := by
  induction l generalizing t h₁ with
  | nil =>
    obtain rfl := hperm.eq_nil
    rw [List.append_nil] at hh
    refine ⟨t, rfl, Option.some.inj hs, ?_⟩
    rw [← hh]
    rfl
  | cons p l ih =>
    rw [List.map_cons, List.foldlM_cons] at hs
    obtain ⟨s₁, hs₁, hs⟩ := Option.bind_eq_some_iff.mp hs
    obtain ⟨r, ls, hr, hls, -, rfl⟩ := Op.links_of_erase hs₁
    obtain rfl := Option.some.inj hls
    obtain ⟨t₁, h₂, hrun, hperm₂, hstore, hrest⟩ := Op.eraseHistory_apply t hh
      (hperm.symm.nodup hnd) (hperm.symm.mem_iff.mp List.mem_cons_self) (by rw [hr]; rfl)
    have hstore : t₁.store = (t.store.setIndex [] none).setCell .history p none := by
      rw [hstore]
      simp [Store.setIndex]
    rw [← hstore] at hs
    have hperm' : h₂.Perm l := hperm₂.trans (List.erase_cons_head p l ▸ hperm.erase p)
    obtain ⟨t₂, hrun₂, hstore₂, hrest₂⟩ := ih (List.nodup_cons.mp hnd).2
      (congrArg Rest.history hrest) hperm' hs
    refine ⟨t₂, ?_, hstore₂, hrest₂.trans (by rw [hrest])⟩
    rw [forM_cons_apply, hrun]
    exact hrun₂

/-! ### The lists the loops go through -/

/-- The images, kind by kind. -/
def restored (h : HashOrder) (u : TPCCUndo F) : List (Σ k, ℕ × Row F k) :=
  savedKinds.flatMap fun k => (h.iter _ (u.modified k)).map fun e => ⟨k, e⟩

/-- The inserted rows, kind by kind. -/
def erased (h : HashOrder) (u : TPCCUndo F) : List (Kind × ℕ) :=
  insertedKinds.flatMap fun k => (h.iter _ (u.inserted k)).map fun p => (k, p)

/-- The deleted rows. -/
def relinked (h : HashOrder) (u : TPCCUndo F) : List (Kind × ℕ) :=
  (h.iter _ (u.deleted .newOrder)).map fun p => (.newOrder, p)

theorem nodup_flatMap_kinds {f : Kind → List ℕ} (hf : ∀ k, (f k).Nodup) {ks : List Kind}
    (hks : ks.Nodup) : (ks.flatMap fun k => (f k).map fun p => (k, p)).Nodup := by
  rw [List.nodup_flatMap]
  refine ⟨fun k _ => (hf k).map fun p q hpq => (Prod.mk.inj hpq).2, hks.imp ?_⟩
  rintro k k' hk ⟨i, p⟩ hp hp'
  obtain ⟨_, _, heq⟩ := List.mem_map.mp hp
  obtain ⟨_, _, heq'⟩ := List.mem_map.mp hp'
  exact hk ((Prod.mk.inj heq).1.trans (Prod.mk.inj heq').1.symm)

/-- Nothing of a buffer is left out. -/
theorem Journals.order {t₀ t : Tables F} {u : TPCCUndo F} (hj : Journals t₀ u t) (h : HashOrder) :
    u.Order (restored h u) (erased h u) (relinked h u) where
  mem_modified k p r := by
    constructor
    · intro hm
      obtain ⟨k', -, hm⟩ := List.mem_flatMap.mp hm
      obtain ⟨e, he, heq⟩ := List.mem_map.mp hm
      obtain ⟨rfl, heq⟩ := Sigma.mk.inj heq
      obtain rfl := eq_of_heq heq
      exact (h.perm _ _).mem_iff.mp he
    · intro hm
      have hk : k ∈ savedKinds := by
        by_contra hk
        rw [hj.modified k hk] at hm
        exact absurd hm List.not_mem_nil
      refine List.mem_flatMap.mpr ⟨k, hk, List.mem_map.mpr ⟨(p, r), ?_, rfl⟩⟩
      exact (h.perm _ _).mem_iff.mpr hm
  mem_inserted k p := by
    constructor
    · intro hm
      obtain ⟨k', -, hm⟩ := List.mem_flatMap.mp hm
      obtain ⟨q, hq, heq⟩ := List.mem_map.mp hm
      obtain ⟨rfl, rfl⟩ := Prod.mk.inj heq
      exact (h.perm _ _).mem_iff.mp hq
    · intro hm
      have hk : k ∈ insertedKinds := by
        by_contra hk
        rw [hj.inserted k hk] at hm
        exact absurd hm List.not_mem_nil
      exact List.mem_flatMap.mpr ⟨k, hk, List.mem_map.mpr ⟨p, (h.perm _ _).mem_iff.mpr hm, rfl⟩⟩
  mem_deleted k p := by
    constructor
    · intro hm
      obtain ⟨q, hq, heq⟩ := List.mem_map.mp hm
      obtain ⟨rfl, rfl⟩ := Prod.mk.inj heq
      exact (h.perm _ _).mem_iff.mp hq
    · intro hm
      obtain rfl : k = .newOrder := by
        by_contra hk
        rw [hj.deleted k hk] at hm
        exact absurd hm List.not_mem_nil
      exact List.mem_map.mpr ⟨p, (h.perm _ _).mem_iff.mpr hm, rfl⟩
  inserted_nodup := nodup_flatMap_kinds
    (fun k => (h.perm _ _).symm.nodup (hj.undoes.inserted_nodup k)) (by decide)
  deleted_nodup := ((h.perm _ _).symm.nodup (hj.undoes.deleted_nodup .newOrder)).map
    fun p q hpq => (Prod.mk.inj hpq).2

/-- **A buffer that undoes the way from `t₀` leads back to its contents.** -/
theorem Journals.applyUndo {t₀ t : Tables F} {u : TPCCUndo F} (hj : Journals t₀ u t) (h : HashOrder) :
    ∃ t', Op.applyUndo h u t = some ((), t') ∧ t'.contents = t₀.contents ∧
      t'.rest.next = t.rest.next := by
  have hundo := hj.undoes.undo (hj.order h)
  obtain ⟨sM, hM, hundo⟩ := Option.bind_eq_some_iff.mp hundo
  obtain ⟨sI, hI, hD⟩ := Option.bind_eq_some_iff.mp hundo
  -- the images
  simp only [restored, savedKinds, List.flatMap_cons, List.flatMap_nil, List.append_nil,
    List.foldlM_append] at hM
  obtain ⟨s₁, hs₁, hM⟩ := Option.bind_eq_some_iff.mp hM
  obtain ⟨s₂, hs₂, hM⟩ := Option.bind_eq_some_iff.mp hM
  obtain ⟨s₃, hs₃, hM⟩ := Option.bind_eq_some_iff.mp hM
  obtain ⟨s₄, hs₄, hM⟩ := Option.bind_eq_some_iff.mp hM
  obtain ⟨s₅, hs₅, hM⟩ := Option.bind_eq_some_iff.mp hM
  obtain ⟨t₁, hr₁, rfl, hrest₁⟩ := restoreFromMap_apply h _ _ hs₁
  obtain ⟨t₂, hr₂, rfl, hrest₂⟩ := restoreFromMap_apply h _ _ hs₂
  obtain ⟨t₃, hr₃, rfl, hrest₃⟩ := restoreFromMap_apply h _ _ hs₃
  obtain ⟨t₄, hr₄, rfl, hrest₄⟩ := restoreFromMap_apply h _ _ hs₄
  obtain ⟨t₅, hr₅, rfl, hrest₅⟩ := restoreFromMap_apply h _ _ hs₅
  obtain ⟨t₆, hr₆, rfl, hrest₆⟩ := restoreFromMap_apply h _ _ hM
  -- the inserted rows
  simp only [erased, insertedKinds, List.flatMap_cons, List.flatMap_nil, List.append_nil,
    List.foldlM_append] at hI
  obtain ⟨s₇, hs₇, hI⟩ := Option.bind_eq_some_iff.mp hI
  obtain ⟨s₈, hs₈, hI⟩ := Option.bind_eq_some_iff.mp hI
  obtain ⟨s₉, hs₉, hI⟩ := Option.bind_eq_some_iff.mp hI
  obtain ⟨t₇, hr₇, rfl, hrest₇⟩ := eraseTuple_apply h _ Op.eraseOrder_erases hs₇
  obtain ⟨t₈, hr₈, rfl, hrest₈⟩ := eraseTuple_apply h _ Op.eraseOrderLine_erases hs₈
  obtain ⟨t₉, hr₉, rfl, hrest₉⟩ := eraseTuple_apply h _ Op.eraseNewOrder_erases hs₉
  have hrest : t₉.rest = t.rest := by
    rw [hrest₉, hrest₈, hrest₇, hrest₆, hrest₅, hrest₄, hrest₃, hrest₂, hrest₁]
  obtain ⟨l, hl, hperm⟩ := hj.history
  have hnd := hj.undoes.inserted_nodup .history
  obtain ⟨t₁₀, hr₁₀, rfl, hrest₁₀⟩ := eraseHistory_all
    ((h.perm _ _).symm.nodup hnd) ((congrArg Rest.history hrest).trans hl)
    (hperm.trans (h.perm _ _).symm) hI
  -- the deleted rows
  rw [relinked, List.foldlM_map] at hD
  obtain ⟨t₁₁, hr₁₁, hstore, hrest₁₁⟩ := forM_apply
    (fun p t s hs => Op.insertNewOrderObject_of_relink t hs) _ hD
  refine ⟨t₁₁, ?_, ?_⟩
  · simp only [Op.applyUndo, bind_apply, hr₁, hr₂, hr₃, hr₄, hr₅, hr₆, hr₇, hr₈, hr₉, Option.bind_some]
    rw [Op.eraseTuple, hr₁₀]
    exact hr₁₁
  · have hend : t₁₁.rest = { t.rest with history := t₀.rest.history } := by
      rw [hrest₁₁, hrest₁₀, hrest]
    refine ⟨Contents.ext hstore ?_ ?_ (congrArg Rest.history hend), (congrArg Rest.next hend).trans rfl⟩
    · exact (congrArg Rest.items hend).trans hj.items
    · exact (congrArg Rest.customersByName hend).trans hj.customersByName

/-! ### One transaction -/

/-- What the buffer has taken over is not reachable, and the tables without it are well
formed too. -/
theorem Journals.wellFormed {t₀ t : Tables F} {u : TPCCUndo F} (hj : Journals t₀ u t)
    (h₀ : t₀.WellFormed) : t.WellFormed where
  linked := hj.linked
  customersByName p hp := by
    refine hj.undoes.live (h₀.customersByName p ?_)
    have hname : t.customersByName = t₀.customersByName := hj.customersByName
    rwa [← hname]
  history p hp := by
    obtain ⟨l, hl, hperm⟩ := hj.history
    have hl : t.history = t₀.history ++ l := hl
    rw [hl] at hp
    rcases List.mem_append.mp hp with hp | hp
    · exact hj.undoes.live (h₀.history p hp)
    · obtain ⟨ls, ⟨r, hr, -⟩, -⟩ := hj.undoes.inserted_linked (hperm.mem_iff.mp hp)
      rw [hr]
      rfl

theorem Without.linked {t₀ t t' : Tables F} {u : TPCCUndo F} (hw : Without u t t')
    (hj : Journals t₀ u t) : t'.store.Linked (schema F) := by
  intro l p hp
  rw [hw.index] at hp
  obtain ⟨ls, hls, hl, hall⟩ := hj.linked l p hp
  refine ⟨ls, hls.congr ?_, hl, by rw [hw.index]; exact hall⟩
  rw [hw.cell, if_neg fun hd => ?_]
  exact hj.undoes.not_deleted hls (hj.undoes.deleted_linked hd).1 hl hp hd

theorem Without.wellFormed {t₀ t t' : Tables F} {u : TPCCUndo F} (hw : Without u t t')
    (hj : Journals t₀ u t) (h₀ : t₀.WellFormed) : t'.WellFormed := by
  have hwf := hj.wellFormed h₀
  have hcell : ∀ k, k ≠ .newOrder → t'.store.cell k = t.store.cell k := fun k hk => by
    refine funext fun p => ?_
    rw [hw.cell, hj.deleted k hk, if_neg List.not_mem_nil]
  have hname : t'.customersByName = t.customersByName := congrArg Rest.customersByName hw.rest
  have hhist : t'.history = t.history := congrArg Rest.history hw.rest
  refine ⟨hw.linked hj, ?_, ?_⟩
  · rw [hname, hcell .customer (by decide)]
    exact hwf.customersByName
  · rw [hhist, hcell .history (by decide)]
    exact hwf.history

theorem Without.refl (t : Tables F) : Without Log.empty t t :=
  ⟨rfl, fun _ _ => (if_neg List.not_mem_nil).symm, rfl⟩

theorem Without.store_of_empty {t t' : Tables F} (hw : Without Log.empty t t') :
    t.store = t'.store :=
  Store.ext (funext fun k => funext fun p => ((hw.cell k p).trans (if_neg List.not_mem_nil)).symm)
    hw.index.symm

/-- **A transaction with a buffer of its own** fails with the one that has a null `undo`,
returns the same, and what it leaves can be undone. -/
def Tx.Journaled {α : Type} (x : Tx F α) : Prop :=
  ∀ t : Tables F, t.store.Linked (schema F) →
    Option.Rel (fun r r' => r.1 = r'.1 ∧ Open t Any r.2 r'.2) (x ⟨t, some none⟩) (x ⟨t, none⟩)

/-- A buffer of its own is empty at first. -/
theorem Keeps.journaled {α : Type} {x : Tx F α} {X : TPCCUndo F → Tables F → Prop}
    (h : ∀ t, Keeps t X Any x) (hX : ∀ t, X Log.empty t) : x.Journaled := by
  intro t ht
  exact h t _ _ ⟨none, rfl, rfl, Journals.refl ht, Without.refl t, hX t⟩

variable [Money F]

theorem Txn.journaled (x : Txn F) : x.exec.Journaled := by
  refine Keeps.journaled (fun _ => x.keeps) fun t => ?_
  cases x with
  | delivery => exact fun _ _ _ _ => List.not_mem_nil
  | _ => exact trivial

/-- The two halves, for one of the runs. -/
theorem Txn.exec_own_eq_some {t : Tables F} (ht : t.store.Linked (schema F)) {x : Txn F} {c : Call F}
    (hrun : x.exec ⟨t, some none⟩ = some ((), c)) :
    ∃ o c', c.undo = some o ∧ x.exec ⟨t, none⟩ = some ((), c') ∧
      Journals t (o.getD Log.empty) c.tables ∧ Without (o.getD Log.empty) c.tables c'.tables := by
  have hrel := x.journaled t ht
  rw [hrun] at hrel
  cases hrun' : x.exec ⟨t, none⟩ with
  | none =>
    rw [hrun'] at hrel
    nomatch hrel
  | some r' =>
    rw [hrun'] at hrel
    cases hrel with
    | some h =>
      obtain ⟨-, o, ho, -, hj, hw, -⟩ := h
      exact ⟨o, r'.2, ho, rfl, hj, hw⟩

/-! ### A buffer for each transaction -/

/-- Execute a transaction with an `undo` that is null at first, and keep its buffer, if it
has allocated one, on top of the others. -/
def Txn.push (s : Tables F × List (TPCCUndo F)) (x : Txn F) :
    Option (Tables F × List (TPCCUndo F)) :=
  (x.exec ⟨s.1, some none⟩).map fun r => (r.2.tables, r.2.buffer.toList ++ s.2)

/-- Apply buffers, one after the other. -/
def Op.applyAll (h : HashOrder) (us : List (TPCCUndo F)) : Op F Unit := us.forM (applyUndo h)

/-- The buffers lead back to the tables `t₀`, the first one first. -/
inductive Stacked (t₀ : Tables F) : List (TPCCUndo F) → Tables F → Prop
  | base {t : Tables F} : t.contents = t₀.contents → Stacked t₀ [] t
  | push {us : List (TPCCUndo F)} {t t' : Tables F} {u : TPCCUndo F} :
    Stacked t₀ us t → Journals t u t' → Stacked t₀ (u :: us) t'

omit [Money F] in
theorem Stacked.congr {t₀ t t' : Tables F} {us : List (TPCCUndo F)} (h : Stacked t₀ us t)
    (hc : t'.contents = t.contents) (hn : ∀ k, t.rest.next k ≤ t'.rest.next k) :
    Stacked t₀ us t' := by
  cases h with
  | base h => exact Stacked.base (hc.trans h)
  | push h hj => exact Stacked.push h (hj.congr hc hn)

omit [Money F] in
theorem Stacked.applyAll {t₀ t : Tables F} {us : List (TPCCUndo F)} (hs : Stacked t₀ us t)
    (h : HashOrder) : ∃ t', Op.applyAll h us t = some ((), t') ∧ t'.contents = t₀.contents := by
  induction us generalizing t with
  | nil =>
    cases hs with
    | base hc => exact ⟨t, rfl, hc⟩
  | cons u us ih =>
    cases hs with
    | push hs hj =>
      obtain ⟨t₁, hrun₁, hc₁, hn₁⟩ := hj.applyUndo h
      obtain ⟨t₂, hrun₂, hc₂⟩ := ih (hs.congr hc₁ fun k => by rw [hn₁]; exact hj.next_le k)
      refine ⟨t₂, ?_, hc₂⟩
      rw [Op.applyAll, forM_cons_apply, hrun₁]
      exact hrun₂

/-- **A step keeps the stack.** -/
theorem Stacked.step {t₀ : Tables F} {s s' : Tables F × List (TPCCUndo F)} (hs : Stacked t₀ s.2 s.1)
    (hwf : s.1.WellFormed) {x : Txn F} (h : x.push s = some s') :
    Stacked t₀ s'.2 s'.1 ∧ s'.1.WellFormed := by
  obtain ⟨r, hrun, rfl⟩ := Option.map_eq_some_iff.mp h
  obtain ⟨o, c', ho, -, hj, -⟩ := Txn.exec_own_eq_some hwf.linked (c := r.2) hrun
  refine ⟨?_, hj.wellFormed hwf⟩
  cases o with
  | none =>
    -- nothing was allocated, so nothing was changed
    have hb : r.2.buffer = none := by rw [Call.buffer, ho]; rfl
    simp only [hb, Option.toList_none, List.nil_append]
    exact hs.congr hj.contents hj.next_le
  | some u =>
    have hb : r.2.buffer = some u := by rw [Call.buffer, ho]; rfl
    simp only [hb, Option.toList_some]
    exact Stacked.push hs hj

/-- The stack is kept by a run. -/
theorem Stacked.run {t₀ : Tables F} (h₀ : t₀.WellFormed) {xs : List (Txn F)}
    {s : Tables F × List (TPCCUndo F)} (h : Run.result Txn.push (t₀, []) xs = some s) :
    Stacked t₀ s.2 s.1 ∧ s.1.WellFormed := by
  induction xs using List.reverseRecOn generalizing s with
  | nil =>
    obtain rfl := Option.some.inj h
    exact ⟨Stacked.base rfl, h₀⟩
  | append_singleton xs x ih =>
    rw [Run.result_snoc] at h
    obtain ⟨s₁, h₁, h⟩ := Option.bind_eq_some_iff.mp h
    obtain ⟨hs, hwf⟩ := ih h₁
    exact hs.step hwf h

/-! ### Instead of undoing -/

omit [Money F] in
/-- Freeing rows that are allocated. -/
theorem delete_all {kind : Kind} {l : List Ptr} (hnd : l.Nodup) {t : Tables F}
    (hlive : ∀ p ∈ l, (t.store.cell kind p).isSome) :
    ∃ t', l.forM (Op.delete kind) t = some ((), t') ∧ t'.rest = t.rest ∧
      t'.store.index = t.store.index ∧
      ∀ k p, t'.store.cell k p = if k = kind ∧ p ∈ l then none else t.store.cell k p := by
  induction l generalizing t with
  | nil => exact ⟨t, rfl, rfl, rfl, fun _ _ => by simp⟩
  | cons q l ih =>
    obtain ⟨hq, hnd⟩ := List.nodup_cons.mp hnd
    obtain ⟨t₁, hrun₁, hstore₁, hrest₁⟩ := Op.delete_of_live t (hlive q List.mem_cons_self)
    have hcell₁ : ∀ k p, ¬(k = kind ∧ p = q) → t₁.store.cell k p = t.store.cell k p :=
      fun k p hne => by rw [hstore₁, Store.setCell_cell_of_ne _ _ hne]
    obtain ⟨t₂, hrun₂, hrest₂, hidx₂, hcell₂⟩ := ih hnd (t := t₁) fun p hp => by
      rw [hcell₁ _ _ fun heq => hq (heq.2 ▸ hp)]
      exact hlive p (List.mem_cons_of_mem _ hp)
    refine ⟨t₂, ?_, hrest₂.trans hrest₁, ?_, fun k p => ?_⟩
    · rw [forM_cons_apply, hrun₁]
      exact hrun₂
    · rw [hidx₂, hstore₁]
      rfl
    · rw [hcell₂]
      by_cases heq : k = kind ∧ p = q
      · obtain ⟨rfl, rfl⟩ := heq
        rw [if_neg fun hl => hq hl.2, if_pos ⟨rfl, List.mem_cons_self⟩, hstore₁,
          Store.setCell_cell_same]
      · rw [hcell₁ k p heq]
        refine if_congr ?_ rfl rfl
        rw [List.mem_cons]
        tauto

omit [Money F] in
/-- **To free a buffer** is to be left with the tables without what it has taken over. -/
theorem Journals.freeUndo {t₀ t : Tables F} {u : TPCCUndo F} (hj : Journals t₀ u t) (h : HashOrder) :
    ∃ t', Op.freeUndo h u t = some ((), t') ∧ Without u t t' := by
  have hperm := h.perm _ (u.deleted .newOrder)
  obtain ⟨t', hrun, hrest, hidx, hcell⟩ := delete_all (t := t)
    (hperm.symm.nodup (hj.undoes.deleted_nodup .newOrder)) fun p hp => by
      obtain ⟨-, ls, ⟨r, hr, -⟩, -⟩ := hj.undoes.deleted_linked (hperm.mem_iff.mp hp)
      rw [hr]
      rfl
  refine ⟨t', hrun, hidx, fun k p => (hcell k p).trans ?_, hrest⟩
  by_cases hk : k = .newOrder
  · subst hk
    simp only [true_and, hperm.mem_iff]
  · simp [hk, hj.deleted k hk]

omit [Money F] in
/-- There is only one way to be without it. -/
theorem Without.unique {t t' t'' : Tables F} {u : TPCCUndo F} (hw : Without u t t') (hw' : Without u t t'') :
    t''.store = t'.store ∧ t''.rest = t'.rest :=
  ⟨Store.ext (funext fun k => funext fun p => (hw'.cell k p).trans (hw.cell k p).symm) (hw'.index.trans hw.index.symm),
    hw'.rest.trans hw.rest.symm⟩

omit [Money F] in
/-- **A buffer that is freed makes no difference.** -/
theorem Tx.Journaled.commit {α : Type} {x : Tx F α} (hx : x.Journaled) {t : Tables F}
    (ht : t.store.Linked (schema F)) (h : HashOrder) :
    Option.Rel (fun r r' => r.1 = r'.1 ∧ r.2.store = r'.2.store ∧ r.2.rest = r'.2.rest)
      (x.commit (some h) t) (x.commit none t) := by
  have hrel := hx t ht
  rw [Tx.commit, Tx.commit]
  generalize x ⟨t, some none⟩ = r at hrel
  generalize x ⟨t, none⟩ = r' at hrel
  cases hrel with
  | none => exact Option.Rel.none
  | @some r r' hr =>
    obtain ⟨hres, o, ho, -, hj, hw, -⟩ := hr
    simp only [Option.bind_some, Option.map_some]
    cases o with
    | none =>
      have hb : r.2.buffer = none := by rw [Call.buffer, ho]; rfl
      simp only [hb]
      exact Option.Rel.some ⟨hres, hw.store_of_empty, hw.rest.symm⟩
    | some u =>
      have hb : r.2.buffer = some u := by rw [Call.buffer, ho]; rfl
      obtain ⟨t'', hrun, hw'⟩ := hj.freeUndo h
      have hc := hw.unique hw'
      simp only [hb]
      have hrun : Op.freeUndo h u r.2.tables = some ((), t'') := hrun
      rw [hrun, Option.map_some]
      exact Option.Rel.some ⟨hres, hc⟩

omit [Money F] in
theorem Tx.Journaled.commit_contents {α : Type} {x : Tx F α} (hx : x.Journaled) {t : Tables F}
    (ht : t.store.Linked (schema F)) (h : HashOrder) :
    (x.commit (some h) t).map (fun r => r.2.contents) =
      (x.commit none t).map fun r => r.2.contents := by
  have hrel := hx.commit ht h
  generalize x.commit (some h) t = r at hrel
  generalize x.commit none t = r' at hrel
  cases hrel with
  | none => rfl
  | some hr => exact congrArg some (Tables.contents_eq hr.2.1 hr.2.2)

/-- **Undo is an inverse.** Buffers of their own that a run of transactions has filled,
applied last to first, lead back to the contents the run has started from. A buffer that
is freed instead makes no difference. -/
theorem undo_inverse (h : HashOrder) {t : Tables F} (ht : t.WellFormed) :
    (∀ xs t' us, Run.result Txn.push (t, []) xs = some (t', us) →
      ∃ t'', Op.applyAll h us t' = some ((), t'') ∧ t''.contents = t.contents ∧ t''.WellFormed) ∧
    ∀ x : Txn F, (x.exec.commit (some h) t).map (fun r => r.2.contents) =
      (x.exec.commit none t).map fun r => r.2.contents := by
  refine ⟨fun xs t' us hrun => ?_, fun x => x.journaled.commit_contents ht.linked h⟩
  obtain ⟨t'', hundo, hc⟩ := (Stacked.run ht hrun).1.applyAll h
  exact ⟨t'', hundo, hc, ht.congr hc⟩

/-- An order of one item. -/
def smallOrder : Txn ℚ := .newOrder .asInserted 1 1 1 [⟨1, 1, 1⟩] (List.replicate 14 '0') .new

/-- A delivery. -/
def smallDelivery : Txn ℚ := .delivery 1 1 (List.replicate 14 '0')

/-- An order is placed and delivered. -/
theorem undo_inverse_delivered :
    ∃ t us t', Run.result Txn.push (smallTables, []) [smallOrder, smallDelivery] = some (t, us) ∧
      Op.applyAll .asInserted us t = some ((), t') ∧ t'.contents = smallTables.contents := by
  have hrun : (Run.result Txn.push (smallTables, []) [smallOrder, smallDelivery]).isSome := by
    decide +kernel
  obtain ⟨⟨t, us⟩, hrun⟩ := Option.isSome_iff_exists.mp hrun
  obtain ⟨t', hundo, hc, -⟩ :=
    (undo_inverse .asInserted smallTables_wellFormed).1 [smallOrder, smallDelivery] t us hrun
  exact ⟨t, us, t', hrun, hundo, hc⟩

/-! ### One buffer for all transactions -/

/-- Execute a transaction with the variable `undo` of the one before. -/
def Txn.extend (c : Call F) (x : Txn F) : Option (Call F) := (x.exec c).map fun r => r.2

/-- Undo what the variable `undo` holds. -/
def Call.applyUndo (h : HashOrder) (c : Call F) : Option (Tables F) :=
  match c.buffer with
  | none => some c.tables
  | some u => (Op.applyUndo h u c.tables).map fun r => r.2

/-- In a run, no delivery takes a new-order row that the run has inserted. -/
def TakesNoneOfItsOwn (t : Tables F) (xs : List (Txn F)) : Prop :=
  Run.Each (fun done x => ∀ c, Run.result Txn.extend ⟨t, some none⟩ done = some c →
    x.Undoable (c.buffer.getD Log.empty) c.tables) xs

/-- **An extended buffer keeps.** -/
theorem Txn.extend_open {t : Tables F} (ht : t.WellFormed) {xs : List (Txn F)}
    (hxs : TakesNoneOfItsOwn t xs) {c : Call F}
    (hrun : Run.result Txn.extend ⟨t, some none⟩ xs = some c) : ∃ c', Open t Any c c' := by
  induction xs using List.reverseRecOn generalizing c with
  | nil =>
    obtain rfl := Option.some.inj hrun
    exact ⟨⟨t, none⟩, none, rfl, rfl, Journals.refl ht.linked, Without.refl t, trivial⟩
  | append_singleton xs x ih =>
    obtain ⟨hxs, hx⟩ := Run.each_snoc.mp hxs
    rw [Run.result_snoc] at hrun
    obtain ⟨c₁, hrun₁, hrun⟩ := Option.bind_eq_some_iff.mp hrun
    obtain ⟨r, hexec, rfl⟩ := Option.map_eq_some_iff.mp hrun
    obtain ⟨c₁', o, ho, hc₁', hj, hw, -⟩ := ih hxs hrun₁
    have hb : c₁.buffer = o := by rw [Call.buffer, ho]; rfl
    have hsafe := hx c₁ hrun₁
    rw [hb] at hsafe
    have hkeeps : Keeps t x.Undoable Any x.exec := x.keeps
    have hrel := hkeeps c₁ c₁' ⟨o, ho, hc₁', hj, hw, hsafe⟩
    rw [hexec] at hrel
    generalize x.exec c₁' = r' at hrel
    cases hrel with
    | some h => exact ⟨_, h.2⟩

/-- **An extended buffer undoes everything**, if no delivery has taken a new-order row
inserted in the run. -/
theorem undo_extended (h : HashOrder) {t : Tables F} (ht : t.WellFormed) {xs : List (Txn F)}
    (hxs : TakesNoneOfItsOwn t xs) {c : Call F}
    (hrun : Run.result Txn.extend ⟨t, some none⟩ xs = some c) :
    ∃ t', c.applyUndo h = some t' ∧ t'.contents = t.contents ∧ t'.WellFormed := by
  obtain ⟨c', o, ho, -, hj, -⟩ := Txn.extend_open ht hxs hrun
  have hb : c.buffer = o := by rw [Call.buffer, ho]; rfl
  rw [Call.applyUndo, hb]
  cases o with
  | none =>
    have hc : c.tables.contents = t.contents := hj.contents
    exact ⟨c.tables, rfl, hc, ht.congr hc⟩
  | some u =>
    obtain ⟨t', hundo, hc, -⟩ := hj.applyUndo h
    refine ⟨t', ?_, hc, ht.congr hc⟩
    exact congrArg (Option.map fun r => r.2) hundo

end TpccBench
