import TpccBench.Lib.Journal

/-!
# Who owns a row

A row that is allocated is freed by whoever reaches it: by the indexes, or by one of the roots, which are
kept outside of the store. `TpccBench.Store.Owned` says that each row is reached in one of these ways, and in
one only. So nothing is lost, and nothing is freed twice. What a journal undoes takes rows out of the indexes,
and then they are the roots of the journal (`TpccBench.Store.Owned.undoes`).
-/

namespace TpccBench

namespace Store

variable {Kind : Type} {Row : Kind → Type} {Idx Key : Type}
variable {S : Schema Kind Row Idx Key} {s s' : Store Kind Row Idx Key} {roots : List (Kind × ℕ)}

/-- An index leads to the row. -/
def Reaches (S : Schema Kind Row Idx Key) (s : Store Kind Row Idx Key) (e : Kind × ℕ) : Prop :=
  ∃ l : Idx × Key, S.kind l.1 = e.1 ∧ s.index l.1 l.2 = some e.2

/-- **Each row has one owner**: the indexes, or one of the roots. -/
structure Owned (S : Schema Kind Row Idx Key) (s : Store Kind Row Idx Key) (roots : List (Kind × ℕ)) : Prop where
  linked : s.Linked S
  nodup : roots.Nodup
  /-- A root lives, and nothing leads to it. -/
  live {e : Kind × ℕ} : e ∈ roots → (s.cell e.1 e.2).isSome
  apart {e : Kind × ℕ} : e ∈ roots → ¬s.Reaches S e
  /-- What lives is not lost. -/
  owner {e : Kind × ℕ} : (s.cell e.1 e.2).isSome → e ∈ roots ∨ s.Reaches S e

theorem Linked.isSome_of_reaches (h : s.Linked S) {e : Kind × ℕ} (he : s.Reaches S e) :
    (s.cell e.1 e.2).isSome := by
  obtain ⟨k, p⟩ := e
  obtain ⟨l, rfl, hl⟩ := he
  obtain ⟨ls, ⟨r, hr, -⟩, -⟩ := h l p hl
  exact Option.isSome_of_eq_some hr

namespace Owned

theorem perm (h : s.Owned S roots) {roots' : List (Kind × ℕ)} (hp : roots.Perm roots') : s.Owned S roots' where
  linked := h.linked
  nodup := hp.nodup_iff.mp h.nodup
  live he := h.live (hp.mem_iff.mpr he)
  apart he := h.apart (hp.mem_iff.mpr he)
  owner he := (h.owner he).imp_left hp.mem_iff.mp

/-- The cells that live are the same, and so are the entries. -/
theorem congr (h : s.Owned S roots) (hlinked : s'.Linked S) (hindex : s'.index = s.index)
    (hcell : ∀ e : Kind × ℕ, (s'.cell e.1 e.2).isSome = (s.cell e.1 e.2).isSome) : s'.Owned S roots where
  linked := hlinked
  nodup := h.nodup
  live he := by
    rw [hcell]
    exact h.live he
  apart he := by
    rw [Reaches, hindex]
    exact h.apart he
  owner he := by
    rw [hcell] at he
    rw [Reaches, hindex]
    exact h.owner he

/-- **Roots are freed.** -/
theorem free [DecidableEq Kind] {freed : List (Kind × ℕ)} (h : s.Owned S (freed ++ roots)) (hindex : s'.index = s.index)
    (hcell : ∀ k p, s'.cell k p = if (k, p) ∈ freed then none else s.cell k p) : s'.Owned S roots := by
  have hkept : ∀ {e : Kind × ℕ}, e ∉ freed → s'.cell e.1 e.2 = s.cell e.1 e.2 := fun {e} he => by
    rw [hcell, if_neg he]
  obtain ⟨-, hnd, hdisj⟩ := List.nodup_append.mp h.nodup
  have hreach : ∀ e, s'.Reaches S e ↔ s.Reaches S e := fun e => by rw [Reaches, Reaches, hindex]
  refine ⟨fun l p hl => ?_, hnd, fun {e} he => ?_, fun {e} he => ?_, fun {e} he => ?_⟩
  · rw [hindex] at hl
    have hout : (S.kind l.1, p) ∉ freed := fun hin =>
      h.apart (List.mem_append_left _ hin) ⟨l, rfl, hl⟩
    obtain ⟨ls, hls, hin, hall⟩ := h.linked l p hl
    refine ⟨ls, hls.congr (hkept hout), hin, fun l' hl' => ?_⟩
    rw [hindex]
    exact hall l' hl'
  · rw [hkept fun hin => hdisj e hin e he rfl]
    exact h.live (List.mem_append_right _ he)
  · rw [hreach]
    exact h.apart (List.mem_append_right _ he)
  · have hout : e ∉ freed := fun hin => by
      rw [hcell, if_pos hin] at he
      exact absurd he (by simp)
    rw [hkept hout] at he
    rw [hreach]
    refine (h.owner he).imp_left fun hin => ?_
    exact (List.mem_append.mp hin).resolve_left hout

variable [DecidableEq Kind]

section Cells

variable {k : Kind} {p : ℕ}

theorem isSome_setCell {r : Option (Row k)} (hr : r.isSome = (s.cell k p).isSome) (e : Kind × ℕ) :
    ((s.setCell k p r).cell e.1 e.2).isSome = (s.cell e.1 e.2).isSome := by
  obtain ⟨k', p'⟩ := e
  by_cases heq : k' = k ∧ p' = p
  · obtain ⟨rfl, rfl⟩ := heq
    rw [setCell_cell_same, hr]
  · rw [setCell_cell_of_ne _ _ heq]

/-- **A row is written**, and stays linked as it is. -/
theorem write (h : s.Owned S roots) {r r' : Row k} (hr : s.cell k p = some r) (hl : S.links k r' = S.links k r) :
    (s.setCell k p (some r')).Owned S roots :=
  h.congr (h.linked.write hr hl) rfl (isSome_setCell (by rw [hr, Option.isSome_some, Option.isSome_some]))

/-- **A row is allocated** and linked nowhere: it is a root. -/
theorem alloc (h : s.Owned S roots) {r : Row k} (hfresh : s.cell k p = none) :
    (s.setCell k p (some r)).Owned S (roots ++ [(k, p)]) := by
  have hdead : ¬((s.cell k p).isSome = true) := by simp [hfresh]
  have hnew : (k, p) ∉ roots := fun he => hdead (h.live he)
  have hkept : ∀ {e : Kind × ℕ}, e ≠ (k, p) → (s.setCell k p (some r)).cell e.1 e.2 = s.cell e.1 e.2 := fun {e} he =>
    setCell_cell_of_ne _ _ fun heq => he (Prod.ext heq.1 heq.2)
  refine ⟨h.linked.alloc r hfresh, ?_, fun {e} he => ?_, fun {e} he hreach => ?_, fun {e} he => ?_⟩
  · refine List.nodup_append.mpr ⟨h.nodup, List.nodup_singleton _, fun e he e' he' heq => hnew ?_⟩
    rw [← List.mem_singleton.mp he', ← heq]
    exact he
  · by_cases heq : e = (k, p)
    · rw [heq, setCell_cell_same]
      rfl
    · rw [hkept heq]
      rcases List.mem_append.mp he with he | he
      · exact h.live he
      · exact absurd (List.mem_singleton.mp he) heq
  · rcases List.mem_append.mp he with he | he
    · exact h.apart he hreach
    · rw [List.mem_singleton.mp he] at hreach
      exact hdead (h.linked.isSome_of_reaches hreach)
  · by_cases heq : e = (k, p)
    · exact Or.inl (List.mem_append_right _ (List.mem_singleton.mpr heq))
    · rw [hkept heq] at he
      exact (h.owner he).imp_left (List.mem_append_left _)

end Cells

variable [DecidableEq Idx] [DecidableEq Key] {k : Kind} {p : ℕ} {ls : List (Idx × Key)}

omit [DecidableEq Kind] in
/-- Entries that lead nowhere come to lead to a row. -/
theorem reaches_setIndex (hidx : ∀ l ∈ ls, s.index l.1 l.2 = none) {e : Kind × ℕ} (he : s.Reaches S e) :
    (s.setIndex ls (some p)).Reaches S e := by
  obtain ⟨l, hk, hl⟩ := he
  refine ⟨l, hk, ?_⟩
  rw [setIndex_index, if_neg fun hin => ?_]
  · exact hl
  · exact absurd ((hidx l hin).symm.trans hl) (by simp)

omit [DecidableEq Kind] in
/-- **A root is linked**, and is a root no longer. -/
theorem relink (h : s.Owned S ((k, p) :: roots)) (hls : s.Links S k p ls) (hne : ls ≠ [])
    (hidx : ∀ l ∈ ls, s.index l.1 l.2 = none) : (s.setIndex ls (some p)).Owned S roots := by
  obtain ⟨hnot, hnd⟩ := List.nodup_cons.mp h.nodup
  obtain ⟨r, hr, hl⟩ := id hls
  refine ⟨h.linked.relink hls hidx, hnd, fun {e} he => h.live (List.mem_cons_of_mem _ he), fun {e} he => ?_,
    fun {e} he => ?_⟩
  · rintro ⟨l, hk, hlead⟩
    rw [setIndex_index] at hlead
    split at hlead
    · next hin =>
      have heq : e = (k, p) := Prod.ext (hk.symm.trans (S.kind_of_links hl hin)) (Option.some.inj hlead).symm
      exact hnot (heq ▸ he)
    · exact h.apart (List.mem_cons_of_mem _ he) ⟨l, hk, hlead⟩
  · rcases h.owner he with he | he
    · rcases List.mem_cons.mp he with rfl | he
      · obtain ⟨l, hin⟩ := List.exists_mem_of_ne_nil ls hne
        refine Or.inr ⟨l, S.kind_of_links hl hin, ?_⟩
        rw [setIndex_index, if_pos hin]
      · exact Or.inl he
    · exact Or.inr (reaches_setIndex hidx he)

/-- **A row is allocated and linked.** -/
theorem insert (h : s.Owned S roots) {r : Row k} (hfresh : s.cell k p = none) (hl : S.links k r = some ls)
    (hne : ls ≠ []) (hidx : ∀ l ∈ ls, s.index l.1 l.2 = none) :
    ((s.setCell k p (some r)).setIndex ls (some p)).Owned S roots :=
  ((h.alloc hfresh).perm (List.perm_append_singleton _ _)).relink ⟨r, setCell_cell_same .., hl⟩ hne hidx

omit [DecidableEq Kind] in
/-- **A row is unlinked**, and becomes a root. -/
theorem unlink (h : s.Owned S roots) (hls : s.Links S k p ls) (hne : ls ≠ [])
    (hidx : ∀ l ∈ ls, s.index l.1 l.2 = some p) : (s.setIndex ls none).Owned S ((k, p) :: roots) := by
  obtain ⟨r, hr, hl⟩ := id hls
  obtain ⟨l₀, hl₀⟩ := List.exists_mem_of_ne_nil ls hne
  have hreach : s.Reaches S (k, p) := ⟨l₀, S.kind_of_links hl hl₀, hidx l₀ hl₀⟩
  have hcut : ∀ {e : Kind × ℕ}, (s.setIndex ls none).Reaches S e → s.Reaches S e := by
    rintro e ⟨l, hk, hlead⟩
    rw [setIndex_index] at hlead
    split at hlead
    · exact absurd hlead (by simp)
    · exact ⟨l, hk, hlead⟩
  refine ⟨h.linked.unlink hls hidx, List.nodup_cons.mpr ⟨fun he => h.apart he hreach, h.nodup⟩, fun {e} he => ?_,
    fun {e} he => ?_, fun {e} he => ?_⟩
  · rcases List.mem_cons.mp he with rfl | he
    · exact Option.isSome_of_eq_some hr
    · exact h.live he
  · rcases List.mem_cons.mp he with rfl | he
    · rintro ⟨l, hk, hlead⟩
      -- an entry that leads to the row is one of its links
      obtain ⟨l', -, hl'⟩ := hcut ⟨l, hk, hlead⟩
      rw [setIndex_index] at hlead
      split at hlead
      · exact absurd hlead (by simp)
      · next hout =>
        obtain ⟨ls', hls', hin, -⟩ := h.linked l p hlead
        rw [show S.kind l.1 = k from hk] at hls'
        exact hout (hls.unique hls' ▸ hin)
    · exact fun hr => h.apart he (hcut hr)
  · rcases h.owner he with he | ⟨l, hk, hlead⟩
    · exact Or.inl (List.mem_cons_of_mem _ he)
    · by_cases hin : l ∈ ls
      · have heq : e = (k, p) := Prod.ext (hk.symm.trans (S.kind_of_links hl hin))
          (Option.some.inj (hlead.symm.trans (hidx l hin)))
        exact Or.inl (List.mem_cons.mpr (Or.inl heq))
      · refine Or.inr ⟨l, hk, ?_⟩
        rw [setIndex_index, if_neg hin]
        exact hlead

/-- **A row is unlinked and freed.** -/
theorem erase (h : s.Owned S roots) (hls : s.Links S k p ls) (hne : ls ≠ [])
    (hidx : ∀ l ∈ ls, s.index l.1 l.2 = some p) : ((s.setIndex ls none).setCell k p none).Owned S roots := by
  have hroot : (s.setIndex ls none).Owned S ([(k, p)] ++ roots) := h.unlink hls hne hidx
  refine hroot.free rfl fun k' p' => ?_
  split
  · next hin =>
    obtain ⟨rfl, rfl⟩ := Prod.mk.inj (List.mem_singleton.mp hin)
    exact setCell_cell_same ..
  · next hout =>
    exact setCell_cell_of_ne _ _ fun heq => hout (List.mem_singleton.mpr (Prod.ext heq.1 heq.2))

omit [DecidableEq Kind] [DecidableEq Idx] [DecidableEq Key] in
/-- **A link of an inserted row** leads to the row. -/
theorem leads_of_inserted {log : Log Kind Row} {s₀ : Store Kind Row Idx Key} (hu : log.Undoes S s s₀) {l : Idx × Key}
    {e : Kind × ℕ} (h : Log.LinkOf S s log.inserted l e) : S.kind l.1 = e.1 ∧ s.index l.1 l.2 = some e.2 := by
  obtain ⟨hin, ls, hls, hl⟩ := h
  obtain ⟨ls', hls', hidx⟩ := hu.inserted_linked hin
  obtain rfl := hls.unique hls'
  obtain ⟨r, -, hlr⟩ := hls
  exact ⟨S.kind_of_links hlr hl, hidx l hl⟩

omit [DecidableEq Kind] [DecidableEq Idx] [DecidableEq Key] in
/-- **A link of an unlinked row** led to the row. -/
theorem led_of_deleted {log : Log Kind Row} {s₀ : Store Kind Row Idx Key} (hu : log.Undoes S s s₀) {l : Idx × Key}
    {e : Kind × ℕ} (h : Log.LinkOf S s log.deleted l e) : S.kind l.1 = e.1 ∧ s₀.index l.1 l.2 = some e.2 := by
  obtain ⟨hin, ls, hls, hl⟩ := h
  obtain ⟨-, ls', hls', hidx⟩ := hu.deleted_linked hin
  obtain rfl := hls.unique hls'
  obtain ⟨r, -, hlr⟩ := hls
  exact ⟨S.kind_of_links hlr hl, hidx l hl⟩

omit [DecidableEq Kind] [DecidableEq Idx] [DecidableEq Key] in
/-- **No entry leads** to a root that was not inserted, to a row that was unlinked, or to one without links. -/
theorem not_reaches_of_undoes {log : Log Kind Row} {s₀ : Store Kind Row Idx Key} (h : s₀.Owned S roots)
    (hu : log.Undoes S s s₀) (hs : s.Linked S) {e : Kind × ℕ}
    (he : e ∈ roots ∧ e.2 ∉ log.inserted e.1 ∨ e.2 ∈ log.deleted e.1 ∨ s.Links S e.1 e.2 []) : ¬s.Reaches S e := by
  rintro ⟨l, hk, hl⟩
  obtain ⟨ls, hls, hin, -⟩ := hs l e.2 hl
  rw [hk] at hls
  have hnil : ¬s.Links S e.1 e.2 [] := fun hnil => by
    rw [hls.unique hnil] at hin
    exact List.not_mem_nil hin
  have hout : e.2 ∉ log.inserted e.1 := by
    rcases he with ⟨-, hout⟩ | hd | hnil'
    · exact hout
    · exact (hu.deleted_linked hd).1
    · exact absurd hnil' hnil
  have hnone : ∀ e', ¬Log.LinkOf S s log.inserted l e' := fun e' hl' => by
    obtain ⟨hk', hidx⟩ := leads_of_inserted hu hl'
    have heq : e' = e := Prod.ext (hk'.symm.trans hk) (Option.some.inj (hidx.symm.trans hl))
    exact hout (heq ▸ hl'.1)
  -- a link of an unlinked row is no entry any more
  have hkept : ∀ e', ¬Log.LinkOf S s log.deleted l e' := fun e' hdl => by
    rcases hu.index_deleted hdl with ⟨e'', hl'⟩ | hcut
    · exact hnone e'' hl'
    · exact absurd (hcut.symm.trans hl) (by simp)
  rcases he with ⟨hroot, -⟩ | hd | hnil'
  · refine h.apart hroot ⟨l, hk, ?_⟩
    rw [hu.index_kept hnone hkept]
    exact hl
  · exact hkept e ⟨hd, ls, hls, hin⟩
  · exact hnil hnil'

omit [DecidableEq Kind] [DecidableEq Idx] [DecidableEq Key] in
/-- **Who owns a row** after what a journal undoes. -/
theorem owner_of_undoes {log : Log Kind Row} {s₀ : Store Kind Row Idx Key} (h : s₀.Owned S roots)
    (hu : log.Undoes S s s₀) {e : Kind × ℕ} (he : (s.cell e.1 e.2).isSome) :
    e ∈ roots ∨ (e.2 ∈ log.deleted e.1 ∨ e.2 ∈ log.inserted e.1 ∧ s.Links S e.1 e.2 []) ∨ s.Reaches S e := by
  by_cases hi : e.2 ∈ log.inserted e.1
  · obtain ⟨ls, hls, hidx⟩ := hu.inserted_linked hi
    rcases ls with _ | ⟨l, ls⟩
    · exact Or.inr (Or.inl (Or.inr ⟨hi, hls⟩))
    · obtain ⟨r, -, hlr⟩ := hls
      exact Or.inr (Or.inr ⟨l, S.kind_of_links hlr List.mem_cons_self, hidx l List.mem_cons_self⟩)
  have hold : (s₀.cell e.1 e.2).isSome := by
    by_cases hm : ∃ r, (e.2, r) ∈ log.modified e.1
    · obtain ⟨r, hm⟩ := hm
      rw [hu.saved hm hi]
      rfl
    · rw [hu.kept (fun r hr => hm ⟨r, hr⟩) hi]
      exact he
  rcases h.owner hold with hroot | ⟨l, hk, hl⟩
  · exact Or.inl hroot
  -- the entry that led to the row before
  by_cases hdl : ∃ e', Log.LinkOf S s log.deleted l e'
  · obtain ⟨e', hdl⟩ := hdl
    obtain ⟨hk', hidx⟩ := led_of_deleted hu hdl
    have heq : e' = e := Prod.ext (hk'.symm.trans hk) (Option.some.inj (hidx.symm.trans hl))
    exact Or.inr (Or.inl (Or.inl (heq ▸ hdl.1)))
  · by_cases hil : ∃ e', Log.LinkOf S s log.inserted l e'
    · obtain ⟨e', hil⟩ := hil
      have hnil := hu.index_inserted hil fun e'' hl' => hdl ⟨e'', hl'⟩
      exact absurd (hnil.symm.trans hl) (by simp)
    · refine Or.inr (Or.inr ⟨l, hk, ?_⟩)
      rw [← hu.index_kept (fun e' hl' => hil ⟨e', hl'⟩) fun e' hl' => hdl ⟨e', hl'⟩]
      exact hl

omit [DecidableEq Kind] [DecidableEq Idx] [DecidableEq Key] in
/-- **What a journal undoes** makes new roots: the rows that were unlinked, and the ones that were inserted
and have no links. -/
theorem undoes {log : Log Kind Row} {s₀ : Store Kind Row Idx Key} {new : List (Kind × ℕ)} (h : s₀.Owned S roots)
    (hu : log.Undoes S s s₀) (hs : s.Linked S) (hnd : new.Nodup)
    (hnew : ∀ e : Kind × ℕ, e ∈ new ↔ e.2 ∈ log.deleted e.1 ∨ e.2 ∈ log.inserted e.1 ∧ s.Links S e.1 e.2 [])
    (hdel : ∀ k p, p ∈ log.deleted k → ¬s.Links S k p []) : s.Owned S (roots ++ new) := by
  -- what is inserted was not there, and what is unlinked was linked
  have hins : ∀ {e : Kind × ℕ}, e ∈ roots → e.2 ∉ log.inserted e.1 := fun {e} he hin => by
    have hlive := h.live he
    rw [hu.fresh hin] at hlive
    exact absurd hlive (by simp)
  have hled : ∀ {e : Kind × ℕ}, e.2 ∈ log.deleted e.1 → s₀.Reaches S e := fun {e} hin => by
    obtain ⟨-, ls, hls, hidx⟩ := hu.deleted_linked hin
    obtain ⟨l, hl⟩ := List.exists_mem_of_ne_nil ls fun hnil => hdel _ _ hin (hnil ▸ hls)
    obtain ⟨r, -, hlr⟩ := hls
    exact ⟨l, S.kind_of_links hlr hl, hidx l hl⟩
  refine ⟨hs, ?_, fun {e} he => ?_, fun {e} he => ?_, fun {e} he => ?_⟩
  · refine List.nodup_append.mpr ⟨h.nodup, hnd, fun e he e' he' heq => ?_⟩
    rw [← heq] at he'
    rcases (hnew e).mp he' with hin | ⟨hin, -⟩
    · exact h.apart he (hled hin)
    · exact hins he hin
  · rcases List.mem_append.mp he with he | he
    · exact hu.live (h.live he)
    · rcases (hnew e).mp he with hin | ⟨-, r, hr, -⟩
      · obtain ⟨-, ls, ⟨r, hr, -⟩, -⟩ := hu.deleted_linked hin
        exact Option.isSome_of_eq_some hr
      · exact Option.isSome_of_eq_some hr
  · refine h.not_reaches_of_undoes hu hs ?_
    rcases List.mem_append.mp he with he | he
    · exact Or.inl ⟨he, hins he⟩
    · rcases (hnew e).mp he with hd | ⟨-, hnil⟩
      · exact Or.inr (Or.inl hd)
      · exact Or.inr (Or.inr hnil)
  · rcases h.owner_of_undoes hu he with hroot | hin | hreach
    · exact Or.inl (List.mem_append_left _ hroot)
    · exact Or.inl (List.mem_append_right _ ((hnew e).mpr hin))
    · exact Or.inr hreach

end Owned

end Store

end TpccBench
