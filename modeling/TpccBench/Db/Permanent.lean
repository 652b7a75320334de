import TpccBench.Db.Insertions
import TpccBench.Tables.Lifetime

/-!
# What is never taken out

Warehouses, districts, stock rows and customers are inserted, and that is all that happens to the entries that
lead to them (`TpccBench.SameEntries`): a transaction writes such a row where it is, and undoing a transaction
writes it back. So in any life of the tables one of these rows is found exactly if it was inserted
(`TpccBench.life_finds`), and `hasWarehouse` tells which warehouses were.

That is not so for the zero key, which can get lost in a tree; a warehouse has another id.
-/

namespace TpccBench

open Prog

variable {F : Type} {t t' t'' : Tables F} {u : TPCCUndo F}

/-- `hasWarehouse`. -/
def Op.hasWarehouse (warehouseId : ℤ) : Op F Bool := do return (← findWarehouse warehouseId).isSome

/-! ### Entries that stay the same -/

/-- The rows that no transaction inserts or erases. -/
def lastingKinds : List Kind := [.warehouse, .district, .stock, .customer]

/-- **The entries that lead to such rows** are what they were. -/
def SameEntries (t t' : Tables F) : Prop :=
  ∀ (i : Index) (key : ℤ), i.kind ∈ lastingKinds → t'.store.index i key = t.store.index i key

namespace SameEntries

theorem of_index (h : t'.store.index = t.store.index) : SameEntries t t' := fun _ _ _ => by rw [h]

theorem refl (t : Tables F) : SameEntries t t := of_index rfl

theorem trans (h : SameEntries t t') (h' : SameEntries t' t'') : SameEntries t t'' := fun i key hi =>
  (h' i key hi).trans (h i key hi)

/-- Entries that lead to other rows have changed. -/
theorem of_setIndex {k : Kind} (hk : k ∉ lastingKinds) {ls : List (Index × ℤ)} (hls : ∀ l ∈ ls, l.1.kind = k)
    {p : Option ℕ} (h : t'.store.index = (t.store.setIndex ls p).index) : SameEntries t t' := by
  intro i key hi
  rw [h]
  refine (Store.setIndex_index _ _ _ (i, key)).trans (if_neg fun hin => hk ?_)
  rwa [← hls _ hin]

end SameEntries

/-! ### Operations -/

theorem assign_sameEntries {k : Kind} {p : Ptr} {r : Row F k} (h : Op.assign k (some p) r t = some ((), t')) :
    SameEntries t t' := by
  cases hr : t.store.cell k p with
  | none =>
    rw [Op.assign_of_dead t hr] at h
    exact absurd h (by simp)
  | some r' =>
    obtain ⟨t₁, hrun, hstore, -⟩ := Op.assign_of_live t (by rw [hr]; rfl) r
    obtain rfl := (Prod.mk.inj (Option.some.inj (hrun.symm.trans h))).2
    exact SameEntries.of_index (by rw [hstore]; rfl)

theorem delete_sameEntries {k : Kind} {p : Ptr} (h : Op.delete k p t = some ((), t')) : SameEntries t t' := by
  by_cases hlive : (t.store.cell k p).isSome
  · obtain ⟨t₁, hrun, hstore, -⟩ := Op.delete_of_live t hlive
    obtain rfl := (Prod.mk.inj (Option.some.inj (hrun.symm.trans h))).2
    exact SameEntries.of_index (by rw [hstore]; rfl)
  · rw [Op.delete_of_dead t (by simpa using hlive)] at h
    exact absurd h (by simp)

theorem sameEntries_of_erases {x : Op F Unit} {k : Kind} {p : Ptr} (hk : k ∉ lastingKinds) (hx : Op.Erases x k p)
    (honly : ErasesOnly x k p) (h : x t = some ((), t')) : SameEntries t t' := by
  obtain ⟨s, hs⟩ := Option.isSome_iff_exists.mp (honly t t' h)
  obtain ⟨t₁, hrun, hstore, -⟩ := hx t s hs
  obtain rfl := (Prod.mk.inj (Option.some.inj (hrun.symm.trans h))).2
  obtain ⟨r, ls, -, hls, -, rfl⟩ := Op.links_of_erase hs
  exact SameEntries.of_setIndex hk (fun l hl => kind_of_rowLinks hls hl) (p := none) (by rw [hstore]; rfl)

theorem eraseHistory_sameEntries {p : Ptr} (h : Op.eraseHistory p t = some ((), t')) : SameEntries t t' := by
  obtain ⟨_, t₁, hfrom, hdel⟩ := bind_eq_some h
  obtain ⟨l, -, heq⟩ := Option.map_eq_some_iff.mp hfrom
  obtain rfl := (Prod.mk.inj heq).2
  have hunlinked : SameEntries t { t with history := l } := SameEntries.of_index rfl
  exact hunlinked.trans (delete_sameEntries hdel)

theorem insertNewOrderObject_sameEntries {p : Ptr} (h : Op.insertNewOrderObject p t = some ((), t')) :
    SameEntries t t' := by
  rw [Op.insertNewOrderObject] at h
  obtain ⟨no, t₁, hread, h⟩ := bind_eq_some h
  obtain ⟨-, rfl⟩ := deref_eq_some hread
  obtain ⟨key, t₂, hlift, h⟩ := bind_eq_some h
  obtain ⟨-, rfl⟩ := lift_eq_some hlift
  split at h
  · obtain rfl := (Prod.mk.inj (Option.some.inj h)).2
    have hls : ∀ l ∈ [(Index.neworders, key)], Index.kind l.1 = .newOrder := fun l hl => by
      rw [List.mem_singleton.mp hl]
      rfl
    exact SameEntries.of_setIndex (by decide) hls (p := some p) (by rw [Op.store_insertNewOrder])
  · exact absurd h (by simp)

theorem forM_sameEntries {ι : Type} {x : ι → Op F Unit} {l : List ι}
    (hx : ∀ i (t₁ t₂ : Tables F), x i t₁ = some ((), t₂) → SameEntries t₁ t₂) (h : l.forM x t = some ((), t')) :
    SameEntries t t' := by
  refine Triple.forM (I := SameEntries t) (fun i _ t₁ h₁ _ t₂ hrun => ?_) t (SameEntries.refl t) () t' h
  exact h₁.trans (hx i t₁ t₂ hrun)

/-! ### Transactions and their buffers -/

/-- **A transaction** with a buffer of its own. -/
theorem Journals.sameEntries (hj : Journals t u t') : SameEntries t t' := by
  intro i key hi
  have hnone : ∀ (ps : Kind → List ℕ), (∀ k ∈ lastingKinds, ps k = []) → ∀ e,
      ¬Log.LinkOf (schema F) t'.store ps (i, key) e := by
    rintro ps hps e ⟨hin, ls, ⟨r, -, hls⟩, hl⟩
    rw [hps e.1 (kind_of_rowLinks hls hl ▸ hi)] at hin
    exact List.not_mem_nil hin
  refine (hj.undoes.index_kept (l := (i, key)) (hnone _ fun k hk => hj.inserted k ?_)
    (hnone _ fun k hk => hj.deleted k ?_)).symm
  · exact (by decide : ∀ k ∈ lastingKinds, k ∉ insertedKinds) k hk
  · rintro rfl
    exact absurd hk (by decide)

/-- **A committed transaction**, with a buffer or without. -/
theorem Tx.Journaled.commit_sameEntries {α : Type} {x : Tx F α} (hx : x.Journaled)
    (ht : t.store.Linked (schema F)) {free : Option HashOrder} {a : α} (hrun : x.commit free t = some (a, t')) :
    SameEntries t t' := by
  have hnull : ∀ a' t₁, x.commit none t = some (a', t₁) → SameEntries t t₁ := by
    intro a' t₁ h₁
    obtain ⟨r', hr', heq⟩ := Option.map_eq_some_iff.mp h₁
    have hrel := hx t ht
    rw [hr'] at hrel
    generalize x ⟨t, some none⟩ = r at hrel
    cases hrel with
    | some h =>
      obtain ⟨-, o, -, -, hj, hw, -⟩ := h
      obtain rfl := (Prod.mk.inj heq).2
      exact hj.sameEntries.trans (SameEntries.of_index hw.index)
  cases free with
  | none => exact hnull a t' hrun
  | some h =>
    have hrel := hx.commit ht h
    rw [hrun] at hrel
    cases hnone : x.commit none t with
    | none =>
      rw [hnone] at hrel
      nomatch hrel
    | some r =>
      rw [hnone] at hrel
      cases hrel with
      | some h => exact (hnull r.1 r.2 hnone).trans (SameEntries.of_index (by rw [h.2.1]))

/-- **An undone transaction**, whenever that is. -/
theorem applyUndo_sameEntries {h : HashOrder} (hrun : Op.applyUndo h u t = some ((), t')) : SameEntries t t' := by
  have hrestore : ∀ {k : Kind} {t₁ t₂ : Tables F}, Op.restoreFromMap h k (u.modified k) t₁ = some ((), t₂) →
      SameEntries t₁ t₂ := forM_sameEntries fun _ _ _ => assign_sameEntries
  have herase : ∀ {k : Kind} {l : List Ptr} {erase : Ptr → Op F Unit} {t₁ t₂ : Tables F}, k ∉ lastingKinds →
      (∀ p, Op.Erases (erase p) k p) → (∀ p, ErasesOnly (erase p) k p) →
        Op.eraseTuple h l erase t₁ = some ((), t₂) → SameEntries t₁ t₂ := fun hk hx honly =>
    forM_sameEntries fun p _ _ => sameEntries_of_erases hk (hx p) (honly p)
  obtain ⟨_, t₁, h₁, hrun⟩ := bind_eq_some hrun
  obtain ⟨_, t₂, h₂, hrun⟩ := bind_eq_some hrun
  obtain ⟨_, t₃, h₃, hrun⟩ := bind_eq_some hrun
  obtain ⟨_, t₄, h₄, hrun⟩ := bind_eq_some hrun
  obtain ⟨_, t₅, h₅, hrun⟩ := bind_eq_some hrun
  obtain ⟨_, t₆, h₆, hrun⟩ := bind_eq_some hrun
  have hrows := (hrestore h₁).trans ((hrestore h₂).trans ((hrestore h₃).trans ((hrestore h₄).trans
    ((hrestore h₅).trans (hrestore h₆)))))
  obtain ⟨_, t₇, h₇, hrun⟩ := bind_eq_some hrun
  have e₇ := hrows.trans (herase (by decide) Op.eraseOrder_erases eraseOrder_only h₇)
  obtain ⟨_, t₈, h₈, hrun⟩ := bind_eq_some hrun
  have e₈ := e₇.trans (herase (by decide) Op.eraseOrderLine_erases eraseOrderLine_only h₈)
  obtain ⟨_, t₉, h₉, hrun⟩ := bind_eq_some hrun
  have e₉ := e₈.trans (herase (by decide) Op.eraseNewOrder_erases eraseNewOrder_only h₉)
  obtain ⟨_, t₁₀, h₁₀, hrun⟩ := bind_eq_some hrun
  have e₁₀ := e₉.trans (forM_sameEntries (fun _ _ _ => eraseHistory_sameEntries) h₁₀)
  exact e₁₀.trans (forM_sameEntries (fun _ _ _ => insertNewOrderObject_sameEntries) hrun)

/-! ### Insertions -/

/-- The id that is given to a new row. -/
def Insertion.newId (i : Insertion F) (k : Kind) : Option (RowId k) := (i.row k).map (rowId k)

/-- **Rows with new ids**, at most one of each kind: there was none, and now there is. -/
structure Enters (new : (k : Kind) → Option (RowId k)) (t t' : Tables F) : Prop where
  fresh {k : Kind} {id : RowId k} : k ∈ lastingKinds → new k = some id → t.lookup k id = none
  found {k : Kind} {id : RowId k} : k ∈ lastingKinds →
    ((t'.lookup k id).isSome ↔ (t.lookup k id).isSome ∨ new k = some id)

theorem SameEntries.lookup (h : SameEntries t t') {k : Kind} (hk : k ∈ lastingKinds) (id : RowId k) :
    t'.lookup k id = t.lookup k id := by
  cases hl : primary k id with
  | none => rw [Tables.lookup, Tables.lookup, hl, Option.bind_none, Option.bind_none]
  | some l =>
    rw [Tables.lookup_of_primary hl, Tables.lookup_of_primary hl]
    exact h l.1 l.2 (kind_of_primary hl ▸ hk)

theorem SameEntries.enters (h : SameEntries t t') {new : (k : Kind) → Option (RowId k)}
    (hnew : ∀ k ∈ lastingKinds, new k = none) : Enters new t t' where
  fresh hk hid := by simp [hnew _ hk] at hid
  found hk := by simp [h.lookup hk, hnew _ hk]

/-- A row that an insertion inserts by its ids. -/
theorem Insertion.of_row {i : Insertion F} {k : Kind} {r : Row F k} (hk : k ≠ .history) (hr : i.row k = some r) :
    i.Of k r := by
  rcases i.cases_onDb with ⟨item, rfl⟩ | ⟨h, rfl⟩ | ⟨k', r', hi⟩
  · exact absurd hr (by simp [row])
  · cases k <;> simp [row] at hr hk
  · by_cases heq : k = k'
    · subst heq
      obtain rfl := Option.some.inj (hi.row.symm.trans hr)
      exact hi
    · exact absurd ((hi.row_of_ne k heq).symm.trans hr) (by simp)

theorem Op.Inserts.enters {x : Op F Ptr} {k : Kind} {r : Row F k} (hx : Op.Inserts x k r) {p : Ptr}
    (hrun : x t = some (p, t')) {i : Insertion F} (hi : i.Of k r) : Enters i.newId t t' := by
  obtain ⟨ls, hls, hnone, -, hstore, -⟩ := hx.of_eq_some hrun
  obtain ⟨l₀, hin₀, hl₀⟩ := primary_mem hi.ne_history hls
  have hindex : t'.store.index = (t.store.setIndex ls (some p)).index := by
    rw [hstore]
    rfl
  have hsame : t'.lookup k (rowId k r) = some p := Tables.lookup_setIndex_same hi.ne_history hls hindex
  have hnew : i.newId k = some (rowId k r) := by rw [Insertion.newId, hi.row, Option.map_some]
  have hother : ∀ k', k' ≠ k → i.newId k' = none := fun k' hk' => by
    rw [Insertion.newId, hi.row_of_ne k' hk', Option.map_none]
  refine ⟨fun {k'} {id} _ hid => ?_, fun {k'} {id} _ => ?_⟩
  · by_cases hk' : k' = k
    · subst hk'
      obtain rfl := Option.some.inj (hnew.symm.trans hid)
      rw [Tables.lookup_of_primary hl₀, hnone l₀ hin₀]
    · exact absurd ((hother k' hk').symm.trans hid) (by simp)
  · by_cases hk' : k' = k
    · subst hk'
      by_cases heq : rowId k' r = id
      · subst heq
        simp [hsame, hnew]
      · rw [Tables.lookup_setIndex_other hindex fun l hl hprim => heq (rowId_of_primary_mem hprim hls hl)]
        simp [hnew, heq]
    · rw [Tables.lookup_setIndex_other hindex fun l hl hprim =>
        hk' ((kind_of_primary hprim).symm.trans (kind_of_rowLinks hls hl))]
      simp [hother k' hk']

/-- An insertion that does not return what it has inserted. -/
theorem enters_of_discards {x : Op F Ptr} {k : Kind} {r : Row F k} (hx : Op.Inserts x k r) {y : Op F Unit}
    (hy : y = x >>= fun _ => pure ()) (hrun : y t = some ((), t')) {i : Insertion F} (hi : i.Of k r) :
    Enters i.newId t t' := by
  rw [hy] at hrun
  obtain ⟨p, t₁, hinsert, hrun⟩ := bind_eq_some hrun
  obtain rfl := (Prod.mk.inj (Option.some.inj hrun)).2
  exact hx.enters hinsert hi

theorem insertCustomer_enters {customer : Customer F} (hrun : Op.insertCustomer customer t = some ((), t')) :
    Enters (Insertion.customer customer).newId t t' := by
  obtain ⟨x, p, t₁, l, hx, hinsert, -, -, rfl⟩ := Op.insertCustomer_eq_some hrun
  have henters := hx.enters hinsert (Insertion.of_row (i := .customer customer) (by simp) rfl)
  -- linking by name changes no entry
  exact ⟨henters.fresh, henters.found⟩

/-- **An insertion.** -/
theorem Insertion.enters {i : Insertion F} (hi : i.Numbered) (hrun : i.exec t = some ((), t')) :
    Enters i.newId t t' := by
  cases i with
  | item item =>
    rw [Insertion.exec, Op.insertItem] at hrun
    split at hrun
    · have hafter := (Prod.mk.inj (Option.some.inj hrun)).2
      refine SameEntries.enters (SameEntries.of_index (by rw [← hafter]; rfl)) fun k _ => ?_
      cases k <;> rfl
    · exact absurd hrun (by simp)
  | warehouse w =>
    have hlinks : rowLinks .warehouse w = (some w.wId).map fun key => [(Index.tree .warehouses, key)] := rfl
    have hx := Op.insertKeyed_inserts (fun key hkey => Option.some.inj hkey ▸ hi) hlinks
    exact enters_of_discards hx rfl hrun (of_row (by simp) rfl)
  | stock s =>
    have hx := Op.insertKeyed_inserts (F := F) (k := .stock) (r := s) (fun _ => makeStockKey_ne_zero) rfl
    exact enters_of_discards hx (by simp only [Insertion.exec, Op.insertStock, bind_assoc]) hrun
      (of_row (by simp) rfl)
  | district d =>
    have hx := Op.insertKeyed_inserts (k := .district) (r := d) (fun _ => makeDistrictKey_ne_zero) rfl
    exact enters_of_discards hx (by simp only [Insertion.exec, Op.insertDistrict, bind_assoc]) hrun
      (of_row (by simp) rfl)
  | customer c => exact insertCustomer_enters hrun
  | order o => exact enters_of_discards (Op.insertOrder_inserts o) rfl hrun (of_row (by simp) rfl)
  | orderLine ol => exact enters_of_discards (Op.insertOrderLine_inserts ol) rfl hrun (of_row (by simp) rfl)
  | newOrder wId dId oId =>
    exact enters_of_discards (Op.insertNewOrder_inserts wId dId oId) rfl hrun (of_row (by simp) rfl)
  | history r =>
    obtain ⟨p, t₁, hinsert, hrun⟩ := bind_eq_some hrun
    obtain rfl := (Prod.mk.inj (Option.some.inj hrun)).2
    obtain ⟨t₁, hrun', hstore, -⟩ := Op.insertHistory_apply t r
    obtain rfl := (Prod.mk.inj (Option.some.inj (hrun'.symm.trans hinsert))).2
    refine SameEntries.enters (SameEntries.of_index (by rw [hstore]; rfl)) fun k hk => ?_
    cases k <;> first | rfl | exact absurd hk (by decide)

/-! ### Whole lives -/

variable [Money F]

/-- The id that is given to a new row. -/
def LifeAction.newId : LifeAction F → (k : Kind) → Option (RowId k)
  | act (.insert i), k => i.newId k
  | _, _ => none

/-- **A step.** -/
theorem LifeAction.enters {s s' : Tables F × List (TPCCUndo F)} (hs : Life s) {a : LifeAction F} (ha : a.Numbered)
    (hstep : a.step s = some s') : Enters a.newId s.1 s'.1 := by
  obtain ⟨t, us⟩ := s
  cases a with
  | act a =>
    cases a with
    | insert i =>
      obtain ⟨r, hrun, rfl⟩ := Option.map_eq_some_iff.mp hstep
      exact Insertion.enters ha hrun
    | commit free x =>
      obtain ⟨r, hrun, rfl⟩ := Option.map_eq_some_iff.mp hstep
      exact (x.journaled.commit_sameEntries hs.accounted.owned.linked hrun).enters fun _ _ => rfl
    | execute x =>
      obtain ⟨r, hrun, rfl⟩ := Option.map_eq_some_iff.mp hstep
      obtain ⟨o, c', ho, -, hj, -⟩ := Txn.exec_own_eq_some hs.accounted.owned.linked (c := r.2) hrun
      exact hj.sameEntries.enters fun _ _ => rfl
    | applyUndo order =>
      cases us with
      | nil => exact absurd hstep (by simp [LifeAction.step, Action.step])
      | cons u us =>
        obtain ⟨r, hrun, rfl⟩ := Option.map_eq_some_iff.mp hstep
        exact (applyUndo_sameEntries hrun).enters fun _ _ => rfl
  | applyUndo i order =>
    obtain ⟨u, -, hstep⟩ := Option.bind_eq_some_iff.mp hstep
    obtain ⟨r, hrun, rfl⟩ := Option.map_eq_some_iff.mp hstep
    exact (applyUndo_sameEntries hrun).enters fun _ _ => rfl
  | freeUndo i order =>
    obtain ⟨u, -, hstep⟩ := Option.bind_eq_some_iff.mp hstep
    obtain ⟨r, hrun, rfl⟩ := Option.map_eq_some_iff.mp hstep
    exact (forM_sameEntries (fun _ _ _ => delete_sameEntries) hrun).enters fun _ _ => rfl

/-- The ids that were given to rows of a kind, in this order. -/
def newIds (k : Kind) (as : List (LifeAction F)) : List (RowId k) := as.filterMap fun a => a.newId k

/-- The ids of one kind. -/
theorem newIds_of_life {as : List (LifeAction F)} (has : ∀ a ∈ as, a.Numbered) {us : List (TPCCUndo F)}
    (hrun : Run.result LifeAction.step (Tables.empty, []) as = some (t, us)) {k : Kind} (hk : k ∈ lastingKinds) :
    (newIds k as).Nodup ∧ ∀ id, (t.lookup k id).isSome ↔ id ∈ newIds k as := by
  induction as using List.reverseRecOn generalizing t us with
  | nil =>
    obtain ⟨rfl, rfl⟩ := Prod.mk.inj (Option.some.inj hrun)
    refine ⟨List.nodup_nil, fun id => ?_⟩
    rw [(Tables.lookup_eq_none_iff Tables.empty_wellFormed.linked).mpr (Tables.empty_row k id)]
    simp [newIds]
  | append_singleton as a ih =>
    rw [Run.result_snoc] at hrun
    obtain ⟨⟨t₁, us₁⟩, h₁, hstep⟩ := Option.bind_eq_some_iff.mp hrun
    have hleft : ∀ a ∈ as, a.Numbered := fun a ha => has a (List.mem_append_left _ ha)
    obtain ⟨hnodup, hfound⟩ := ih hleft h₁
    have henters := LifeAction.enters (Life.run hleft h₁)
      (has a (List.mem_append_right _ (List.mem_singleton_self a))) hstep
    have hids : newIds k (as ++ [a]) = newIds k as ++ (a.newId k).toList := by
      rw [newIds, List.filterMap_append]
      cases h : a.newId k <;> simp [newIds, h]
    rw [hids]
    refine ⟨List.nodup_append.mpr ⟨hnodup, by cases a.newId k <;> simp, ?_⟩, fun id => ?_⟩
    · rintro id hid id' hid' rfl
      have hnone := henters.fresh hk (Option.mem_toList.mp hid')
      have hsome := (hfound id).mpr hid
      rw [hnone] at hsome
      exact absurd hsome (by simp)
    · rw [henters.found hk, hfound, List.mem_append, Option.mem_toList]

/-- **Every id is given once**, and from then on a row is found by it: in any life of the tables, whatever was
committed, undone and freed in between, a warehouse, a district, a stock row or a customer is found exactly if
it was inserted, and `hasWarehouse` tells which warehouses were. -/
theorem life_finds {as : List (LifeAction F)} (has : ∀ a ∈ as, a.Numbered) {us : List (TPCCUndo F)}
    (hrun : Run.result LifeAction.step (Tables.empty, []) as = some (t, us)) :
    (∀ k ∈ lastingKinds, (newIds k as).Nodup ∧ ∀ id, (t.lookup k id).isSome ↔ id ∈ newIds k as) ∧
      ∀ w, ∃ b, Op.hasWarehouse w t = some (b, t) ∧ (b = true ↔ w ∈ newIds .warehouse as) := by
  refine ⟨fun k hk => newIds_of_life has hrun hk, fun w => ⟨((t.tree .warehouses).find w).isSome, rfl, ?_⟩⟩
  exact (newIds_of_life has hrun (k := .warehouse) (by decide)).2 w

theorem life_finds_small :
    ∃ t us, Run.result LifeAction.step (Tables.empty, []) smallLife = some (t, us) ∧
      Op.hasWarehouse 1 t = some (true, t) ∧ Op.hasWarehouse 2 t = some (false, t) ∧
        ∀ id, (t.lookup .district id).isSome ↔ id = (1, 1) := by
  have hrun : (Run.result LifeAction.step (Tables.empty, []) smallLife).isSome := by decide +kernel
  obtain ⟨⟨t, us⟩, hrun⟩ := Option.isSome_iff_exists.mp hrun
  have hnumbered : ∀ a ∈ smallLife, a.Numbered := by
    simp [smallLife, smallDatabase, LifeAction.Numbered, Insertion.Numbered]
  obtain ⟨hall, hhas⟩ := life_finds hnumbered hrun
  have hwarehouses : newIds .warehouse smallLife = [1] := rfl
  have hdistricts : newIds .district smallLife = [(1, 1)] := rfl
  obtain ⟨b₁, h₁, hiff₁⟩ := hhas 1
  obtain ⟨b₂, h₂, hiff₂⟩ := hhas 2
  rw [hwarehouses] at hiff₁ hiff₂
  obtain rfl : b₁ = true := hiff₁.mpr (by simp)
  obtain rfl : b₂ = false := Bool.eq_false_iff.mpr fun h => absurd (hiff₂.mp h) (by simp)
  refine ⟨t, us, hrun, h₁, h₂, fun id => ?_⟩
  rw [(hall .district (by decide)).2 id, hdistricts]
  exact List.mem_singleton

end TpccBench
