import Mathlib.Data.List.Nodup
import Mathlib.Data.Option.Basic
import Mathlib.Logic.Function.Basic

/-!
# Undoing with a journal

A store of rows and of indexes over them. Rows come in kinds, each row lives at an
address, and the fields of a row determine the index entries that should lead to it, its
*links* (`TpccBench.Schema`). A journal (`TpccBench.Log`) collects, in no particular order,
the first image of every row that is written, the rows that are inserted and the rows
that are unlinked.

To undo is to restore all images, then erase the inserted rows – each from where its
*restored* fields say it is linked –, then link the unlinked ones again. Each of the
three is a loop over a collection without an order.

Nothing is proved about the loops while the journal grows. What a step preserves is the
declarative `TpccBench.Log.Undoes`, and that the loops succeed in any order and reach the
old store is proved from it once (`TpccBench.Log.Undoes.undo`).
-/

namespace TpccBench

/-- The rows of a store and its indexes. -/
@[ext]
structure Store (Kind : Type) (Row : Kind → Type) (Idx Key : Type) where
  cell : (k : Kind) → ℕ → Option (Row k)
  index : Idx → Key → Option ℕ

/-- How the rows of each kind are linked. -/
structure Schema (Kind : Type) (Row : Kind → Type) (Idx Key : Type) where
  /-- The entries that lead to a row, when its fields make sense. -/
  links : (k : Kind) → Row k → Option (List (Idx × Key))
  /-- The kind of the rows an index leads to. -/
  kind : Idx → Kind
  kind_of_links {k : Kind} {r : Row k} {ls : List (Idx × Key)} {l : Idx × Key} :
    links k r = some ls → l ∈ ls → kind l.1 = k

variable {Kind : Type} {Row : Kind → Type} {Idx Key : Type}

/-- A journal. -/
@[ext]
structure Log (Kind : Type) (Row : Kind → Type) where
  modified : (k : Kind) → List (ℕ × Row k)
  inserted : (k : Kind) → List ℕ
  deleted : (k : Kind) → List ℕ

variable [DecidableEq Kind] [DecidableEq Idx] [DecidableEq Key]

namespace Store

variable (s : Store Kind Row Idx Key)

/-- Write, allocate or free one cell. -/
def setCell (k : Kind) (p : ℕ) (r : Option (Row k)) : Store Kind Row Idx Key :=
  { s with cell := Function.update s.cell k (Function.update (s.cell k) p r) }

/-- Set some index entries. -/
def setIndex (ls : List (Idx × Key)) (p : Option ℕ) : Store Kind Row Idx Key :=
  { s with index := fun i key => if (i, key) ∈ ls then p else s.index i key }

omit [DecidableEq Idx] [DecidableEq Key] in
@[simp] theorem setCell_index (k : Kind) (p : ℕ) (r : Option (Row k)) :
    (s.setCell k p r).index = s.index := rfl

omit [DecidableEq Kind] in
@[simp] theorem setIndex_cell (ls : List (Idx × Key)) (p : Option ℕ) :
    (s.setIndex ls p).cell = s.cell := rfl

omit [DecidableEq Kind] in
theorem setIndex_index (ls : List (Idx × Key)) (p : Option ℕ) (l : Idx × Key) :
    (s.setIndex ls p).index l.1 l.2 = if l ∈ ls then p else s.index l.1 l.2 := rfl

omit [DecidableEq Idx] [DecidableEq Key] in
@[simp] theorem setCell_cell_same (k : Kind) (p : ℕ) (r : Option (Row k)) :
    (s.setCell k p r).cell k p = r := by
  simp [setCell]

omit [DecidableEq Idx] [DecidableEq Key] in
theorem setCell_cell_of_ne {k k' : Kind} {p p' : ℕ} (r : Option (Row k))
    (h : ¬(k' = k ∧ p' = p)) : (s.setCell k p r).cell k' p' = s.cell k' p' := by
  rw [setCell]
  by_cases hk : k' = k
  · subst hk
    simp only [Function.update_self]
    rw [Function.update_of_ne fun hp => h ⟨rfl, hp⟩]
  · simp [hk]

omit [DecidableEq Kind] in
theorem setIndex_setIndex (ls ls' : List (Idx × Key)) (p : Option ℕ) :
    (s.setIndex ls p).setIndex ls' p = s.setIndex (ls ++ ls') p := by
  refine Store.ext rfl (funext fun i => funext fun key => ?_)
  simp only [setIndex, List.mem_append]
  by_cases h : (i, key) ∈ ls' <;> by_cases h' : (i, key) ∈ ls <;> simp [h, h']

variable (S : Schema Kind Row Idx Key)

/-- Restore the image of a row that is still allocated. -/
def restore (s : Store Kind Row Idx Key) (e : Σ k, ℕ × Row k) : Option (Store Kind Row Idx Key) :=
  if (s.cell e.1 e.2.1).isSome then some (s.setCell e.1 e.2.1 (some e.2.2)) else none

/-- Unlink a row from everywhere, and free it. All its links have to lead to it. -/
def erase (s : Store Kind Row Idx Key) (e : Kind × ℕ) : Option (Store Kind Row Idx Key) := do
  let r ← s.cell e.1 e.2
  let ls ← S.links e.1 r
  guard (∀ l ∈ ls, s.index l.1 l.2 = some e.2)
  return (s.setIndex ls none).setCell e.1 e.2 none

/-- Link a row everywhere. None of its links may lead anywhere. -/
def relink (s : Store Kind Row Idx Key) (e : Kind × ℕ) : Option (Store Kind Row Idx Key) := do
  let r ← s.cell e.1 e.2
  let ls ← S.links e.1 r
  guard (∀ l ∈ ls, s.index l.1 l.2 = none)
  return s.setIndex ls (some e.2)

/-- The row at an address has these links. -/
def Links (k : Kind) (p : ℕ) (ls : List (Idx × Key)) : Prop :=
  ∃ r, s.cell k p = some r ∧ S.links k r = some ls

variable {s S}

theorem erase_of_links {k : Kind} {p : ℕ} {ls : List (Idx × Key)} (h : s.Links S k p ls)
    (hidx : ∀ l ∈ ls, s.index l.1 l.2 = some p) :
    s.erase S (k, p) = some ((s.setIndex ls none).setCell k p none) := by
  obtain ⟨r, hr, hls⟩ := h
  simp only [erase, hr, hls, Option.bind_eq_bind, Option.bind_some]
  rw [guard, if_pos hidx]
  rfl

omit [DecidableEq Kind] in
theorem relink_of_links {k : Kind} {p : ℕ} {ls : List (Idx × Key)} (h : s.Links S k p ls)
    (hidx : ∀ l ∈ ls, s.index l.1 l.2 = none) :
    s.relink S (k, p) = some (s.setIndex ls (some p)) := by
  obtain ⟨r, hr, hls⟩ := h
  simp only [relink, hr, hls, Option.bind_eq_bind, Option.bind_some]
  rw [guard, if_pos hidx]
  rfl

omit [DecidableEq Kind] [DecidableEq Idx] [DecidableEq Key] in
theorem Links.unique {k : Kind} {p : ℕ} {ls ls' : List (Idx × Key)} (h : s.Links S k p ls)
    (h' : s.Links S k p ls') : ls = ls' := by
  obtain ⟨r, hr, hls⟩ := h
  obtain ⟨r', hr', hls'⟩ := h'
  obtain rfl := Option.some.inj (hr.symm.trans hr')
  exact Option.some.inj (hls.symm.trans hls')

omit [DecidableEq Kind] [DecidableEq Idx] [DecidableEq Key] in
theorem Links.congr {t : Store Kind Row Idx Key} {k : Kind} {p : ℕ} {ls : List (Idx × Key)}
    (h : s.Links S k p ls) (hc : t.cell k p = s.cell k p) : t.Links S k p ls := by
  obtain ⟨r, hr, hls⟩ := h
  exact ⟨r, hc.trans hr, hls⟩

/-- The entry is a link of one of the rows of a list. -/
def LinkOf (S : Schema Kind Row Idx Key) (s : Store Kind Row Idx Key) (ps : List (Kind × ℕ))
    (l : Idx × Key) (e : Kind × ℕ) : Prop :=
  e ∈ ps ∧ ∃ ls, s.Links S e.1 e.2 ls ∧ l ∈ ls

/-! ### The three loops -/

omit [DecidableEq Idx] [DecidableEq Key] in
/-- **The restoring loop**, over images of which no two are of the same row. -/
theorem restore_all {M : List (Σ k, ℕ × Row k)} (hlive : ∀ e ∈ M, (s.cell e.1 e.2.1).isSome)
    (hone : ∀ k p r r', ⟨k, p, r⟩ ∈ M → ⟨k, p, r'⟩ ∈ M → r = r') :
    ∃ t, M.foldlM restore s = some t ∧ t.index = s.index ∧
      (∀ k p r, ⟨k, p, r⟩ ∈ M → t.cell k p = some r) ∧
      ∀ k p, (∀ r, ⟨k, p, r⟩ ∉ M) → t.cell k p = s.cell k p := by
  induction M generalizing s with
  | nil => exact ⟨s, rfl, rfl, fun _ _ _ h => absurd h List.not_mem_nil, fun _ _ _ => rfl⟩
  | cons e M ih =>
    obtain ⟨k, p, r⟩ := e
    have hp : (s.cell k p).isSome := hlive ⟨k, p, r⟩ List.mem_cons_self
    obtain ⟨t, ht, hidx, hmem, hkept⟩ := ih (s := s.setCell k p (some r)) (fun e he => by
        obtain ⟨k', p', r'⟩ := e
        by_cases h : k' = k ∧ p' = p
        · obtain ⟨rfl, rfl⟩ := h
          simp
        · rw [setCell_cell_of_ne _ _ h]
          exact hlive _ (List.mem_cons_of_mem _ he))
      (fun k p r r' h h' => hone k p r r' (List.mem_cons_of_mem _ h) (List.mem_cons_of_mem _ h'))
    refine ⟨t, ?_, hidx, fun k' p' r' h => ?_, fun k' p' h => ?_⟩
    · rw [List.foldlM_cons, restore, if_pos hp]
      exact ht
    · by_cases hin : ⟨k', p', r'⟩ ∈ M
      · exact hmem k' p' r' hin
      · rcases List.mem_cons.mp h with heq | h
        · obtain ⟨rfl, heq⟩ := Sigma.mk.inj heq
          obtain ⟨rfl, rfl⟩ := Prod.mk.inj (eq_of_heq heq)
          by_cases hagain : ∃ r, ⟨k', p', r⟩ ∈ M
          · obtain ⟨r, hr⟩ := hagain
            rw [hmem k' p' r hr, hone k' p' r r' (List.mem_cons_of_mem _ hr) h]
          · rw [hkept k' p' fun r hr => hagain ⟨r, hr⟩, setCell_cell_same]
        · exact absurd h hin
    · rw [hkept k' p' fun r' hr => h r' (List.mem_cons_of_mem _ hr)]
      refine setCell_cell_of_ne _ _ ?_
      rintro ⟨rfl, rfl⟩
      exact h r List.mem_cons_self

/-- **The erasing loop**, over rows that all their links lead to. -/
theorem erase_all {I : List (Kind × ℕ)} (hnd : I.Nodup)
    (hlinked : ∀ e ∈ I, ∃ ls, s.Links S e.1 e.2 ls ∧ ∀ l ∈ ls, s.index l.1 l.2 = some e.2) :
    ∃ t, I.foldlM (erase S) s = some t ∧ (∀ e ∈ I, t.cell e.1 e.2 = none) ∧
      (∀ k p, (k, p) ∉ I → t.cell k p = s.cell k p) ∧
      (∀ l e, LinkOf S s I l e → t.index l.1 l.2 = none) ∧
      ∀ l : Idx × Key, (∀ e, ¬LinkOf S s I l e) → t.index l.1 l.2 = s.index l.1 l.2 := by
  induction I generalizing s with
  | nil =>
    exact ⟨s, rfl, fun _ h => absurd h List.not_mem_nil, fun _ _ _ => rfl,
      fun _ _ h => absurd h.1 List.not_mem_nil, fun _ _ => rfl⟩
  | cons e I ih =>
    obtain ⟨k, p⟩ := e
    obtain ⟨hp, hnd⟩ := List.nodup_cons.mp hnd
    obtain ⟨ls, hls, hidx⟩ := hlinked (k, p) List.mem_cons_self
    set s' := (s.setIndex ls none).setCell k p none with hs'
    have hcell : ∀ k' p', (k', p') ∈ I → s'.cell k' p' = s.cell k' p' := fun k' p' h => by
      refine setCell_cell_of_ne _ _ ?_
      rintro ⟨rfl, rfl⟩
      exact hp h
    -- a link of a later row leads to that row, so erasing this one does not cut it
    have hother : ∀ e ∈ I, ∀ ls', s.Links S e.1 e.2 ls' → ∀ l ∈ ls',
        s'.index l.1 l.2 = s.index l.1 l.2 := by
      intro e he ls' hls' l hl
      refine (setIndex_index s ls none l).trans (if_neg fun hl' => ?_)
      obtain ⟨ls'', hls'', hidx''⟩ := hlinked e (List.mem_cons_of_mem _ he)
      obtain rfl := hls'.unique hls''
      obtain ⟨r, -, hr⟩ := hls
      obtain ⟨r', -, hr'⟩ := hls'
      have hk : e.1 = k := (S.kind_of_links hr' hl).symm.trans (S.kind_of_links hr hl')
      have hq : e.2 = p := Option.some.inj ((hidx'' l hl).symm.trans (hidx l hl'))
      exact hp (by rwa [← hk, ← hq])
    have hlinked' : ∀ e ∈ I, ∃ ls, s'.Links S e.1 e.2 ls ∧ ∀ l ∈ ls, s'.index l.1 l.2 = some e.2 := by
      intro e he
      obtain ⟨ls', hls', hidx'⟩ := hlinked e (List.mem_cons_of_mem _ he)
      exact ⟨ls', hls'.congr (hcell _ _ he), fun l hl => (hother e he ls' hls' l hl).trans (hidx' l hl)⟩
    obtain ⟨t, ht, hfree, hkept, hcut, hstay⟩ := ih hnd hlinked'
    have hlinkof : ∀ l e, LinkOf S s' I l e ↔ LinkOf S s I l e := by
      refine fun l e => and_congr_right fun he => exists_congr fun ls' => and_congr_left fun _ => ?_
      exact ⟨fun h => h.congr (hcell _ _ he).symm, fun h => h.congr (hcell _ _ he)⟩
    refine ⟨t, ?_, fun e he => ?_, fun k' p' h => ?_, fun l e h => ?_, fun l h => ?_⟩
    · rw [List.foldlM_cons, erase_of_links hls hidx]
      exact ht
    · rcases List.mem_cons.mp he with rfl | he
      · rw [hkept k p hp, hs', setCell_cell_same]
      · exact hfree e he
    · rw [hkept k' p' fun h' => h (List.mem_cons_of_mem _ h')]
      refine setCell_cell_of_ne _ _ ?_
      rintro ⟨rfl, rfl⟩
      exact h List.mem_cons_self
    · by_cases hin : ∃ e, LinkOf S s' I l e
      · obtain ⟨e', he'⟩ := hin
        exact hcut l e' he'
      · rw [hstay l fun e he => hin ⟨e, he⟩]
        obtain ⟨he, ls', hls', hl⟩ := h
        rcases List.mem_cons.mp he with rfl | he
        · obtain rfl := hls.unique hls'
          exact (setIndex_index s ls none l).trans (if_pos hl)
        · exact absurd ⟨e, (hlinkof l e).mpr ⟨he, ls', hls', hl⟩⟩ hin
    · rw [hstay l fun e he => ?_]
      · refine (setIndex_index s ls none l).trans (if_neg fun hl => ?_)
        exact h (k, p) ⟨List.mem_cons_self, ls, hls, hl⟩
      · obtain ⟨he, hrest⟩ := (hlinkof l e).mp he
        exact h e ⟨List.mem_cons_of_mem _ he, hrest⟩

omit [DecidableEq Kind] in
/-- **The linking loop**, over rows no link of which leads anywhere or is another's. -/
theorem relink_all {D : List (Kind × ℕ)} (hnd : D.Nodup)
    (hfree : ∀ e ∈ D, ∃ ls, s.Links S e.1 e.2 ls ∧ ∀ l ∈ ls, s.index l.1 l.2 = none)
    (hone : ∀ l e e', LinkOf S s D l e → LinkOf S s D l e' → e = e') :
    ∃ t, D.foldlM (relink S) s = some t ∧ t.cell = s.cell ∧
      (∀ l e, LinkOf S s D l e → t.index l.1 l.2 = some e.2) ∧
      ∀ l : Idx × Key, (∀ e, ¬LinkOf S s D l e) → t.index l.1 l.2 = s.index l.1 l.2 := by
  induction D generalizing s with
  | nil => exact ⟨s, rfl, rfl, fun _ _ h => absurd h.1 List.not_mem_nil, fun _ _ => rfl⟩
  | cons e D ih =>
    obtain ⟨k, p⟩ := e
    obtain ⟨hp, hnd⟩ := List.nodup_cons.mp hnd
    obtain ⟨ls, hls, hidx⟩ := hfree (k, p) List.mem_cons_self
    have hhead : ∀ l ∈ ls, LinkOf S s ((k, p) :: D) l (k, p) := fun l hl =>
      ⟨List.mem_cons_self, ls, hls, hl⟩
    have hlinkof : ∀ l e, LinkOf S (s.setIndex ls (some p)) D l e ↔ LinkOf S s D l e :=
      fun _ _ => Iff.rfl
    obtain ⟨t, ht, hcell, hset, hstay⟩ := ih (s := s.setIndex ls (some p)) hnd (fun e he => by
        obtain ⟨ls', hls', hidx'⟩ := hfree e (List.mem_cons_of_mem _ he)
        refine ⟨ls', hls', fun l hl => ?_⟩
        rw [setIndex_index, if_neg fun hl' => ?_, hidx' l hl]
        have heq := hone l e (k, p) ⟨List.mem_cons_of_mem _ he, ls', hls', hl⟩ (hhead l hl')
        exact hp (heq ▸ he))
      (fun l e e' h h' => hone l e e' ⟨List.mem_cons_of_mem _ h.1, h.2⟩
        ⟨List.mem_cons_of_mem _ h'.1, h'.2⟩)
    refine ⟨t, ?_, hcell, fun l e h => ?_, fun l h => ?_⟩
    · rw [List.foldlM_cons, relink_of_links hls hidx]
      exact ht
    · rcases List.mem_cons.mp h.1 with rfl | he
      · obtain ⟨-, ls', hls', hl⟩ := h
        obtain rfl := hls.unique hls'
        rw [hstay l fun e he => ?_, setIndex_index, if_pos hl]
        have heq := hone l e (k, p) ⟨List.mem_cons_of_mem _ he.1, he.2⟩ (hhead l hl)
        exact hp (heq ▸ he.1)
      · exact hset l e ⟨he, h.2⟩
    · rw [hstay l fun e he => h e ⟨List.mem_cons_of_mem _ he.1, he.2⟩, setIndex_index,
        if_neg fun hl => h _ (hhead l hl)]

end Store

/-! ### The journal -/

namespace Log

open Store

/-- The journal nothing is in. -/
def empty : Log Kind Row := ⟨fun _ => [], fun _ => [], fun _ => []⟩

/-- Collect the image of a row, if there is none of it yet. -/
def save (log : Log Kind Row) (k : Kind) (p : ℕ) (r : Row k) : Log Kind Row :=
  if p ∈ (log.modified k).map Prod.fst then log
  else { log with modified := Function.update log.modified k (log.modified k ++ [(p, r)]) }

/-- Collect an inserted row. -/
def insert (log : Log Kind Row) (k : Kind) (p : ℕ) : Log Kind Row :=
  { log with inserted := Function.update log.inserted k (log.inserted k ++ [p]) }

/-- Collect an unlinked row. -/
def delete (log : Log Kind Row) (k : Kind) (p : ℕ) : Log Kind Row :=
  { log with deleted := Function.update log.deleted k (log.deleted k ++ [p]) }

/-- The entry is a link of a row of one of the collections of rows. -/
def LinkOf (S : Schema Kind Row Idx Key) (s : Store Kind Row Idx Key) (ps : Kind → List ℕ)
    (l : Idx × Key) (e : Kind × ℕ) : Prop :=
  e.2 ∈ ps e.1 ∧ ∃ ls, s.Links S e.1 e.2 ls ∧ l ∈ ls

/-- **The journal undoes** the way from the store `s₀` to the store `s`. -/
structure Undoes (S : Schema Kind Row Idx Key) (log : Log Kind Row)
    (s s₀ : Store Kind Row Idx Key) : Prop where
  /-- A row there is an image of is still allocated, and linked as its image. -/
  saved_live {k : Kind} {p : ℕ} {r : Row k} : (p, r) ∈ log.modified k →
    ∃ r', s.cell k p = some r' ∧ S.links k r' = S.links k r
  /-- There is one image of a row. -/
  saved_once {k : Kind} {p : ℕ} {r r' : Row k} : (p, r) ∈ log.modified k →
    (p, r') ∈ log.modified k → r = r'
  /-- The image is what the row was. -/
  saved {k : Kind} {p : ℕ} {r : Row k} : (p, r) ∈ log.modified k → p ∉ log.inserted k →
    s₀.cell k p = some r
  /-- A row there is no image of is what it was. -/
  kept {k : Kind} {p : ℕ} : (∀ r, (p, r) ∉ log.modified k) → p ∉ log.inserted k →
    s₀.cell k p = s.cell k p
  /-- An inserted row was not allocated before. -/
  fresh {k : Kind} {p : ℕ} : p ∈ log.inserted k → s₀.cell k p = none
  inserted_nodup (k : Kind) : (log.inserted k).Nodup
  /-- All links of an inserted row lead to it. -/
  inserted_linked {k : Kind} {p : ℕ} : p ∈ log.inserted k →
    ∃ ls, s.Links S k p ls ∧ ∀ l ∈ ls, s.index l.1 l.2 = some p
  deleted_nodup (k : Kind) : (log.deleted k).Nodup
  /-- An unlinked row was not inserted on the way, and all its links led to it. -/
  deleted_linked {k : Kind} {p : ℕ} : p ∈ log.deleted k →
    p ∉ log.inserted k ∧ ∃ ls, s.Links S k p ls ∧ ∀ l ∈ ls, s₀.index l.1 l.2 = some p
  /-- A link of an unlinked row leads nowhere, or to a row inserted afterwards. -/
  index_deleted {l : Idx × Key} {e : Kind × ℕ} : LinkOf S s log.deleted l e →
    (∃ e', LinkOf S s log.inserted l e') ∨ s.index l.1 l.2 = none
  /-- A link of an inserted row led nowhere, or to a row that was unlinked. -/
  index_inserted {l : Idx × Key} {e : Kind × ℕ} : LinkOf S s log.inserted l e →
    (∀ e', ¬LinkOf S s log.deleted l e') → s₀.index l.1 l.2 = none
  /-- All other entries lead where they led. -/
  index_kept {l : Idx × Key} : (∀ e, ¬LinkOf S s log.inserted l e) →
    (∀ e, ¬LinkOf S s log.deleted l e) → s₀.index l.1 l.2 = s.index l.1 l.2

/-- The lists the three loops go through: the collections of the journal in some order. -/
structure Order (log : Log Kind Row) (M : List (Σ k, ℕ × Row k)) (I D : List (Kind × ℕ)) :
    Prop where
  mem_modified (k : Kind) (p : ℕ) (r : Row k) : ⟨k, p, r⟩ ∈ M ↔ (p, r) ∈ log.modified k
  mem_inserted (k : Kind) (p : ℕ) : (k, p) ∈ I ↔ p ∈ log.inserted k
  mem_deleted (k : Kind) (p : ℕ) : (k, p) ∈ D ↔ p ∈ log.deleted k
  inserted_nodup : I.Nodup
  deleted_nodup : D.Nodup

/-- **To undo.** -/
def undo (S : Schema Kind Row Idx Key) (M : List (Σ k, ℕ × Row k)) (I D : List (Kind × ℕ))
    (s : Store Kind Row Idx Key) : Option (Store Kind Row Idx Key) := do
  let s ← M.foldlM restore s
  let s ← I.foldlM (erase S) s
  D.foldlM (relink S) s

variable {S : Schema Kind Row Idx Key} {log : Log Kind Row} {s s₀ : Store Kind Row Idx Key}

omit [DecidableEq Kind] [DecidableEq Idx] [DecidableEq Key] in
/-- An image is linked as the row it is the image of. -/
theorem Undoes.links_restored (h : Undoes S log s s₀) {t : Store Kind Row Idx Key}
    (hsaved : ∀ k p r, (p, r) ∈ log.modified k → t.cell k p = some r)
    (hkept : ∀ k p, (∀ r, (p, r) ∉ log.modified k) → t.cell k p = s.cell k p) (k : Kind) (p : ℕ)
    (ls : List (Idx × Key)) : t.Links S k p ls ↔ s.Links S k p ls := by
  by_cases hm : ∃ r, (p, r) ∈ log.modified k
  · obtain ⟨r, hr⟩ := hm
    obtain ⟨r', hr', hlinks⟩ := h.saved_live hr
    rw [Links, Links, hsaved k p r hr, hr']
    simp [hlinks]
  · rw [Links, Links, hkept k p fun r hr => hm ⟨r, hr⟩]

/-- **A journal that undoes the way from `s₀` leads back to `s₀`**, in whatever order its
collections are gone through. -/
theorem Undoes.undo (h : Undoes S log s s₀) {M : List (Σ k, ℕ × Row k)} {I D : List (Kind × ℕ)}
    (ho : Order log M I D) : Log.undo S M I D s = some s₀ := by
  obtain ⟨s₁, hrestore, hidx₁, hsaved, hkept⟩ := restore_all (s := s) (M := M)
    (fun e he => by
      obtain ⟨r', hr', -⟩ := h.saved_live ((ho.mem_modified e.1 e.2.1 e.2.2).mp he)
      simp [hr'])
    (fun k p r r' hr hr' =>
      h.saved_once ((ho.mem_modified k p r).mp hr) ((ho.mem_modified k p r').mp hr'))
  have hsaved : ∀ k p r, (p, r) ∈ log.modified k → s₁.cell k p = some r := fun k p r hr =>
    hsaved k p r ((ho.mem_modified k p r).mpr hr)
  have hkept : ∀ k p, (∀ r, (p, r) ∉ log.modified k) → s₁.cell k p = s.cell k p :=
    fun k p hp => hkept k p fun r hr => hp r ((ho.mem_modified k p r).mp hr)
  have hlinks := h.links_restored hsaved hkept
  -- the erasing loop
  obtain ⟨s₂, herase, hfree, hcell₂, hcut, hidx₂⟩ := erase_all (s := s₁) (S := S) ho.inserted_nodup
    (fun e he => by
      obtain ⟨ls, hls, hl⟩ := h.inserted_linked ((ho.mem_inserted e.1 e.2).mp he)
      exact ⟨ls, (hlinks _ _ _).mpr hls, fun l hl' => by rw [hidx₁]; exact hl l hl'⟩)
  have hins : ∀ l e, Store.LinkOf S s₁ I l e ↔ LinkOf S s log.inserted l e := fun l e =>
    and_congr (ho.mem_inserted e.1 e.2) (exists_congr fun ls => and_congr_left' (hlinks _ _ ls))
  -- the linking loop
  have hcelld : ∀ e ∈ D, s₂.cell e.1 e.2 = s₁.cell e.1 e.2 := fun e he =>
    hcell₂ e.1 e.2 fun hi => (h.deleted_linked ((ho.mem_deleted e.1 e.2).mp he)).1
      ((ho.mem_inserted e.1 e.2).mp hi)
  have hdel : ∀ l e, Store.LinkOf S s₂ D l e ↔ LinkOf S s log.deleted l e := by
    intro l e
    refine ⟨fun hl => ?_, fun hl => ?_⟩
    · obtain ⟨he, ls, hls, hl⟩ := hl
      exact ⟨(ho.mem_deleted e.1 e.2).mp he, ls,
        (hlinks _ _ _).mp (hls.congr (hcelld e he).symm), hl⟩
    · obtain ⟨he, ls, hls, hl⟩ := hl
      have he := (ho.mem_deleted e.1 e.2).mpr he
      exact ⟨he, ls, ((hlinks _ _ _).mpr hls).congr (hcelld e he), hl⟩
  have hled : ∀ l e, LinkOf S s log.deleted l e → s₀.index l.1 l.2 = some e.2 := by
    rintro l e ⟨he, ls, hls, hl⟩
    obtain ⟨-, ls', hls', hidx⟩ := h.deleted_linked he
    exact hidx l (hls.unique hls' ▸ hl)
  obtain ⟨s₃, hrelink, hcell₃, hset, hidx₃⟩ := relink_all (s := s₂) (S := S) ho.deleted_nodup
    (fun e he => by
      have hed := (ho.mem_deleted e.1 e.2).mp he
      obtain ⟨hni, ls, hls, hl⟩ := h.deleted_linked hed
      refine ⟨ls, ((hlinks _ _ _).mpr hls).congr (hcelld e he), fun l hl' => ?_⟩
      by_cases hi : ∃ e', LinkOf S s log.inserted l e'
      · obtain ⟨e', he'⟩ := hi
        exact hcut l e' ((hins l e').mpr he')
      · rw [hidx₂ l fun e' he' => hi ⟨e', (hins l e').mp he'⟩, hidx₁]
        exact (h.index_deleted ⟨hed, ls, hls, hl'⟩).resolve_left hi)
    (fun l e e' he he' => by
      have he := (hdel l e).mp he
      have he' := (hdel l e').mp he'
      refine Prod.ext ?_ (Option.some.inj ((hled l e he).symm.trans (hled l e' he')))
      obtain ⟨-, ls, ⟨r, -, hr⟩, hl⟩ := he
      obtain ⟨-, ls', ⟨r', -, hr'⟩, hl'⟩ := he'
      exact (S.kind_of_links hr hl).symm.trans (S.kind_of_links hr' hl'))
  have hend : s₃ = s₀ := by
    refine Store.ext (funext fun k => funext fun p => ?_) (funext fun i => funext fun key => ?_)
    · rw [hcell₃]
      by_cases hi : p ∈ log.inserted k
      · rw [hfree (k, p) ((ho.mem_inserted k p).mpr hi), h.fresh hi]
      · rw [hcell₂ k p fun hi' => hi ((ho.mem_inserted k p).mp hi')]
        by_cases hm : ∃ r, (p, r) ∈ log.modified k
        · obtain ⟨r, hr⟩ := hm
          rw [hsaved k p r hr, h.saved hr hi]
        · have hm : ∀ r, (p, r) ∉ log.modified k := fun r hr => hm ⟨r, hr⟩
          rw [hkept k p hm, h.kept hm hi]
    · by_cases hd : ∃ e, LinkOf S s log.deleted (i, key) e
      · obtain ⟨e, he⟩ := hd
        exact (hset (i, key) e ((hdel _ e).mpr he)).trans (hled (i, key) e he).symm
      · have hd : ∀ e, ¬LinkOf S s log.deleted (i, key) e := fun e he => hd ⟨e, he⟩
        refine (hidx₃ (i, key) fun e he => hd e ((hdel _ e).mp he)).trans ?_
        by_cases hi : ∃ e, LinkOf S s log.inserted (i, key) e
        · obtain ⟨e, he⟩ := hi
          exact (hcut (i, key) e ((hins _ e).mpr he)).trans (h.index_inserted he hd).symm
        · have hi : ∀ e, ¬LinkOf S s log.inserted (i, key) e := fun e he => hi ⟨e, he⟩
          refine (hidx₂ (i, key) fun e he => hi e ((hins _ e).mp he)).trans ?_
          rw [hidx₁]
          exact (h.index_kept hi hd).symm
  simp only [Log.undo, Option.bind_eq_bind, hrestore, Option.bind_some, herase, hrelink, hend]

omit [DecidableEq Kind] [DecidableEq Idx] [DecidableEq Key] in
/-- A row that was allocated still is. -/
theorem Undoes.live (h : Undoes S log s s₀) {k : Kind} {p : ℕ} (hp : (s₀.cell k p).isSome) :
    (s.cell k p).isSome := by
  have hi : p ∉ log.inserted k := fun hi => by simp [h.fresh hi] at hp
  by_cases hm : ∃ r, (p, r) ∈ log.modified k
  · obtain ⟨r, hr⟩ := hm
    obtain ⟨r', hr', -⟩ := h.saved_live hr
    simp [hr']
  · rwa [← h.kept (fun r hr => hm ⟨r, hr⟩) hi]

omit [DecidableEq Kind] [DecidableEq Idx] [DecidableEq Key] in
/-- With nothing to undo, nothing has changed. -/
theorem Undoes.eq_of_empty (h : Undoes S Log.empty s s₀) : s = s₀ :=
  Store.ext
    (funext fun _ => funext fun _ =>
      (h.kept (fun _ hr => absurd hr List.not_mem_nil) List.not_mem_nil).symm)
    (funext fun i => funext fun key =>
      (h.index_kept (l := (i, key)) (fun _ he => absurd he.1 List.not_mem_nil) fun _ he =>
        absurd he.1 List.not_mem_nil).symm)

/-! ### What a step preserves -/

omit [DecidableEq Kind] [DecidableEq Idx] [DecidableEq Key] in
/-- Nothing has to be undone. -/
theorem Undoes.refl (s : Store Kind Row Idx Key) : Undoes S Log.empty s s where
  saved_live h := absurd h List.not_mem_nil
  saved_once h := absurd h List.not_mem_nil
  saved h := absurd h List.not_mem_nil
  kept _ _ := rfl
  fresh h := absurd h List.not_mem_nil
  inserted_nodup _ := List.nodup_nil
  inserted_linked h := absurd h List.not_mem_nil
  deleted_nodup _ := List.nodup_nil
  deleted_linked h := absurd h List.not_mem_nil
  index_deleted h := absurd h.1 List.not_mem_nil
  index_inserted h := absurd h.1 List.not_mem_nil
  index_kept _ _ := rfl

omit [DecidableEq Idx] [DecidableEq Key] in
/-- What the first image of a row adds. -/
theorem mem_save {k k' : Kind} {p p' : ℕ} {r : Row k} {r' : Row k'} :
    (p', r') ∈ (log.save k p r).modified k' ↔
      (p', r') ∈ log.modified k' ∨
        ((∀ r, (p, r) ∉ log.modified k) ∧ (⟨k', p', r'⟩ : Σ k, ℕ × Row k) = ⟨k, p, r⟩) := by
  have hno : p ∉ (log.modified k).map Prod.fst ↔ ∀ r, (p, r) ∉ log.modified k := by
    simp
  rw [save]
  split
  · next hin => simp [← hno, hin]
  · next hout =>
    rw [hno] at hout
    by_cases hk : k' = k
    · subst hk
      simp [hout]
    · simp [hk]

omit [DecidableEq Idx] [DecidableEq Key] in
@[simp] theorem save_inserted (k : Kind) (p : ℕ) (r : Row k) :
    (log.save k p r).inserted = log.inserted := by
  rw [save]
  split <;> rfl

omit [DecidableEq Idx] [DecidableEq Key] in
@[simp] theorem save_deleted (k : Kind) (p : ℕ) (r : Row k) :
    (log.save k p r).deleted = log.deleted := by
  rw [save]
  split <;> rfl

omit [DecidableEq Idx] [DecidableEq Key] in
theorem save_modified_of_ne (log : Log Kind Row) {k k' : Kind} (p : ℕ) (r : Row k) (h : k' ≠ k) :
    (log.save k p r).modified k' = log.modified k' := by
  rw [save]
  split
  · rfl
  · exact Function.update_of_ne h ..

omit [DecidableEq Idx] [DecidableEq Key] in
theorem exists_mem_save (log : Log Kind Row) (k : Kind) (p : ℕ) (r : Row k) :
    ∃ r', (p, r') ∈ (log.save k p r).modified k := by
  by_cases h : ∃ r', (p, r') ∈ log.modified k
  · obtain ⟨r', hr'⟩ := h
    exact ⟨r', mem_save.mpr (Or.inl hr')⟩
  · exact ⟨r, mem_save.mpr (Or.inr ⟨fun r' hr' => h ⟨r', hr'⟩, rfl⟩)⟩

omit [DecidableEq Idx] [DecidableEq Key] in
theorem insert_inserted_same (log : Log Kind Row) (k : Kind) (p : ℕ) :
    (log.insert k p).inserted k = log.inserted k ++ [p] :=
  Function.update_self ..

omit [DecidableEq Idx] [DecidableEq Key] in
theorem insert_inserted_of_ne (log : Log Kind Row) {k k' : Kind} (p : ℕ) (h : k' ≠ k) :
    (log.insert k p).inserted k' = log.inserted k' :=
  Function.update_of_ne h ..

omit [DecidableEq Idx] [DecidableEq Key] in
theorem mem_insert {k k' : Kind} {p p' : ℕ} :
    p' ∈ (log.insert k p).inserted k' ↔ p' ∈ log.inserted k' ∨ (k' = k ∧ p' = p) := by
  rw [insert]
  by_cases hk : k' = k
  · subst hk
    simp
  · simp [hk]

omit [DecidableEq Idx] [DecidableEq Key] in
theorem delete_deleted_of_ne (log : Log Kind Row) {k k' : Kind} (p : ℕ) (h : k' ≠ k) :
    (log.delete k p).deleted k' = log.deleted k' :=
  Function.update_of_ne h ..

omit [DecidableEq Idx] [DecidableEq Key] in
theorem mem_delete {k k' : Kind} {p p' : ℕ} :
    p' ∈ (log.delete k p).deleted k' ↔ p' ∈ log.deleted k' ∨ (k' = k ∧ p' = p) := by
  rw [delete]
  by_cases hk : k' = k
  · subst hk
    simp
  · simp [hk]

omit [DecidableEq Idx] [DecidableEq Key] in
/-- **Collecting the image of a row** before it is written. -/
theorem Undoes.save (h : Undoes S log s s₀) {k : Kind} {p : ℕ} {r : Row k}
    (hr : s.cell k p = some r) : Undoes S (log.save k p r) s s₀ where
  saved_live {k' p' r'} hm := by
    rcases mem_save.mp hm with hm | ⟨-, heq⟩
    · exact h.saved_live hm
    · obtain ⟨rfl, heq⟩ := Sigma.mk.inj heq
      obtain ⟨rfl, rfl⟩ := Prod.mk.inj (eq_of_heq heq)
      exact ⟨_, hr, rfl⟩
  saved_once {k' p' r₁ r₂} hm₁ hm₂ := by
    rcases mem_save.mp hm₁ with hold₁ | ⟨hno₁, heq₁⟩ <;>
      rcases mem_save.mp hm₂ with hold₂ | ⟨hno₂, heq₂⟩
    · exact h.saved_once hold₁ hold₂
    · obtain ⟨rfl, heq⟩ := Sigma.mk.inj heq₂
      obtain ⟨rfl, -⟩ := Prod.mk.inj (eq_of_heq heq)
      exact absurd hold₁ (hno₂ _)
    · obtain ⟨rfl, heq⟩ := Sigma.mk.inj heq₁
      obtain ⟨rfl, -⟩ := Prod.mk.inj (eq_of_heq heq)
      exact absurd hold₂ (hno₁ _)
    · have heq := eq_of_heq (Sigma.mk.inj (heq₁.trans heq₂.symm)).2
      exact (Prod.mk.inj heq).2
  saved {k' p' r'} hm hi := by
    rw [save_inserted] at hi
    rcases mem_save.mp hm with hm | ⟨hno, heq⟩
    · exact h.saved hm hi
    · obtain ⟨rfl, heq⟩ := Sigma.mk.inj heq
      obtain ⟨rfl, rfl⟩ := Prod.mk.inj (eq_of_heq heq)
      exact (h.kept hno hi).trans hr
  kept hm hi := by
    rw [save_inserted] at hi
    exact h.kept (fun r' hr' => hm r' (mem_save.mpr (Or.inl hr'))) hi
  fresh hi := h.fresh (by rwa [save_inserted] at hi)
  inserted_nodup k' := by rw [save_inserted]; exact h.inserted_nodup k'
  inserted_linked hi := h.inserted_linked (by rwa [save_inserted] at hi)
  deleted_nodup k' := by rw [save_deleted]; exact h.deleted_nodup k'
  deleted_linked hd := by
    rw [save_deleted] at hd
    rw [save_inserted]
    exact h.deleted_linked hd
  index_deleted hd := by
    rw [save_deleted] at hd
    rw [save_inserted]
    exact h.index_deleted hd
  index_inserted hi hd := by
    rw [save_inserted] at hi
    rw [save_deleted] at hd
    exact h.index_inserted hi hd
  index_kept hi hd := by
    rw [save_inserted] at hi
    rw [save_deleted] at hd
    exact h.index_kept hi hd

omit [DecidableEq Idx] [DecidableEq Key] in
/-- Writing a row that stays linked as it is leaves all links what they are. -/
theorem links_setCell {k : Kind} {p : ℕ} {r r' : Row k} (hr : s.cell k p = some r)
    (hl : S.links k r' = S.links k r) (k' : Kind) (p' : ℕ) (ls : List (Idx × Key)) :
    (s.setCell k p (some r')).Links S k' p' ls ↔ s.Links S k' p' ls := by
  by_cases heq : k' = k ∧ p' = p
  · obtain ⟨rfl, rfl⟩ := heq
    simp [Links, hr, hl]
  · rw [Links, Links, setCell_cell_of_ne s _ heq]

omit [DecidableEq Idx] [DecidableEq Key] in
/-- **Writing a row** there is an image of. -/
theorem Undoes.write (h : Undoes S log s s₀) {k : Kind} {p : ℕ} {r r' : Row k}
    (hm : ∃ r₀, (p, r₀) ∈ log.modified k) (hr : s.cell k p = some r)
    (hl : S.links k r' = S.links k r) : Undoes S log (s.setCell k p (some r')) s₀ := by
  have hlinks := links_setCell (S := S) hr hl
  have hlinkof : ∀ ps l e, LinkOf S (s.setCell k p (some r')) ps l e ↔ LinkOf S s ps l e :=
    fun ps l e => and_congr_right fun _ => exists_congr fun ls => and_congr_left' (hlinks _ _ ls)
  exact
    { saved_live := fun {k' p' r''} hm' => by
        obtain ⟨r₁, hr₁, hl₁⟩ := h.saved_live hm'
        by_cases heq : k' = k ∧ p' = p
        · obtain ⟨rfl, rfl⟩ := heq
          obtain rfl := Option.some.inj (hr.symm.trans hr₁)
          exact ⟨r', setCell_cell_same .., hl.trans hl₁⟩
        · exact ⟨r₁, (setCell_cell_of_ne s _ heq).trans hr₁, hl₁⟩
      saved_once := h.saved_once
      saved := h.saved
      kept := fun {k' p'} hm' hi => by
        rw [setCell_cell_of_ne s]
        · exact h.kept hm' hi
        · rintro ⟨rfl, rfl⟩
          obtain ⟨r₀, hr₀⟩ := hm
          exact hm' r₀ hr₀
      fresh := h.fresh
      inserted_nodup := h.inserted_nodup
      inserted_linked := fun hi => by
        obtain ⟨ls, hls, hidx⟩ := h.inserted_linked hi
        exact ⟨ls, (hlinks _ _ _).mpr hls, hidx⟩
      deleted_nodup := h.deleted_nodup
      deleted_linked := fun hd => by
        obtain ⟨hi, ls, hls, hidx⟩ := h.deleted_linked hd
        exact ⟨hi, ls, (hlinks _ _ _).mpr hls, hidx⟩
      index_deleted := fun hd => by
        refine (h.index_deleted ((hlinkof _ _ _).mp hd)).imp_left ?_
        rintro ⟨e, he⟩
        exact ⟨e, (hlinkof _ _ _).mpr he⟩
      index_inserted := fun hi hd => h.index_inserted ((hlinkof _ _ _).mp hi) fun e he =>
        hd e ((hlinkof _ _ _).mpr he)
      index_kept := fun hi hd => h.index_kept (fun e he => hi e ((hlinkof _ _ _).mpr he)) fun e he =>
        hd e ((hlinkof _ _ _).mpr he) }

theorem nodup_snoc {ps : List ℕ} {p : ℕ} (h : ps.Nodup) (hp : p ∉ ps) : (ps ++ [p]).Nodup := by
  refine List.nodup_append.mpr ⟨h, List.nodup_singleton p, fun q hq q' hq' => ?_⟩
  obtain rfl := List.mem_singleton.mp hq'
  exact fun heq => hp (heq ▸ hq)

/-- **Inserting a row** at a new address. -/
theorem Undoes.insert (h : Undoes S log s s₀) {k : Kind} {p : ℕ} {r : Row k}
    {ls : List (Idx × Key)} (hfresh : s.cell k p = none) (hl : S.links k r = some ls)
    (hidx : ∀ l ∈ ls, s.index l.1 l.2 = none) :
    Undoes S (log.insert k p) ((s.setCell k p (some r)).setIndex ls (some p)) s₀ := by
  have hnm : ∀ r', (p, r') ∉ log.modified k := fun r' hr' => by
    obtain ⟨_, hlive, -⟩ := h.saved_live hr'
    simp [hfresh] at hlive
  have hdead : ∀ ls', ¬s.Links S k p ls' := by
    rintro ls' ⟨r', hr', -⟩
    simp [hfresh] at hr'
  have hni : p ∉ log.inserted k := fun hi => by
    obtain ⟨ls', hls', -⟩ := h.inserted_linked hi
    exact hdead ls' hls'
  have hnd : p ∉ log.deleted k := fun hd => by
    obtain ⟨-, ls', hls', -⟩ := h.deleted_linked hd
    exact hdead ls' hls'
  set s' := (s.setCell k p (some r)).setIndex ls (some p) with hs'
  have hcell : ∀ k' p', ¬(k' = k ∧ p' = p) → s'.cell k' p' = s.cell k' p' := fun k' p' hne =>
    setCell_cell_of_ne s _ hne
  have hlinks : ∀ k' p' ls', ¬(k' = k ∧ p' = p) → (s'.Links S k' p' ls' ↔ s.Links S k' p' ls') :=
    fun k' p' ls' hne => ⟨fun hl => hl.congr (hcell _ _ hne).symm, fun hl => hl.congr (hcell _ _ hne)⟩
  have hself : s'.Links S k p ls := ⟨r, setCell_cell_same .., hl⟩
  have hindex : ∀ l : Idx × Key, s'.index l.1 l.2 = if l ∈ ls then some p else s.index l.1 l.2 :=
    fun l => rfl
  have hins : ∀ l e, LinkOf S s' (log.insert k p).inserted l e ↔
      LinkOf S s log.inserted l e ∨ (e = (k, p) ∧ l ∈ ls) := by
    rintro l ⟨k', p'⟩
    by_cases hne : k' = k ∧ p' = p
    · obtain ⟨rfl, rfl⟩ := hne
      constructor
      · rintro ⟨-, ls', hls', hl'⟩
        exact Or.inr ⟨rfl, hls'.unique hself ▸ hl'⟩
      · rintro (⟨hi, -⟩ | ⟨-, hl'⟩)
        · exact absurd hi hni
        · exact ⟨mem_insert.mpr (Or.inr ⟨rfl, rfl⟩), ls, hself, hl'⟩
    · have hne' : (k', p') ≠ (k, p) := fun heq => hne (Prod.mk.inj heq)
      simp only [LinkOf, mem_insert, hne, hne', or_false, false_and]
      exact and_congr_right fun _ => exists_congr fun ls' => and_congr_left' (hlinks _ _ ls' hne)
  have hdel : ∀ l e, LinkOf S s' (log.insert k p).deleted l e ↔ LinkOf S s log.deleted l e := by
    rintro l ⟨k', p'⟩
    refine and_congr_right fun hd => exists_congr fun ls' => and_congr_left' (hlinks _ _ ls' ?_)
    rintro ⟨rfl, rfl⟩
    exact hnd hd
  exact
    { saved_live := fun {k' p' r'} hm => by
        obtain ⟨r₁, hr₁, hl₁⟩ := h.saved_live hm
        refine ⟨r₁, (hcell k' p' ?_).trans hr₁, hl₁⟩
        rintro ⟨rfl, rfl⟩
        exact hnm r' hm
      saved_once := h.saved_once
      saved := fun hm hi => h.saved hm fun hi' => hi (mem_insert.mpr (Or.inl hi'))
      kept := fun {k' p'} hm hi => by
        rw [hcell k' p' fun heq => hi (mem_insert.mpr (Or.inr heq))]
        exact h.kept hm fun hi' => hi (mem_insert.mpr (Or.inl hi'))
      fresh := fun hi => by
        rcases mem_insert.mp hi with hi | ⟨rfl, rfl⟩
        · exact h.fresh hi
        · exact (h.kept hnm hni).trans hfresh
      inserted_nodup := fun k' => by
        rw [Log.insert]
        by_cases hk : k' = k
        · subst hk
          simp only [Function.update_self]
          exact nodup_snoc (h.inserted_nodup k') hni
        · simpa [hk] using h.inserted_nodup k'
      inserted_linked := fun {k' p'} hi => by
        rcases mem_insert.mp hi with hold | ⟨rfl, rfl⟩
        · obtain ⟨ls', hls', hidx'⟩ := h.inserted_linked hold
          refine ⟨ls', (hlinks k' p' ls' ?_).mpr hls', fun l hl' => ?_⟩
          · rintro ⟨rfl, rfl⟩
            exact hni hold
          · rw [hindex, if_neg fun hin => ?_, hidx' l hl']
            exact absurd ((hidx l hin).symm.trans (hidx' l hl')) (by simp)
        · exact ⟨ls, hself, fun l hl' => by rw [hindex, if_pos hl']⟩
      deleted_nodup := h.deleted_nodup
      deleted_linked := fun {k' p'} hd => by
        have hne : ¬(k' = k ∧ p' = p) := by
          rintro ⟨rfl, rfl⟩
          exact hnd hd
        obtain ⟨hi, ls', hls', hidx'⟩ := h.deleted_linked hd
        exact ⟨fun hi' => (mem_insert.mp hi').elim hi hne, ls', (hlinks _ _ _ hne).mpr hls', hidx'⟩
      index_deleted := fun {l e} hd => by
        by_cases hl' : l ∈ ls
        · exact Or.inl ⟨(k, p), (hins _ _).mpr (Or.inr ⟨rfl, hl'⟩)⟩
        · rw [hindex, if_neg hl']
          refine (h.index_deleted ((hdel l e).mp hd)).imp_left ?_
          rintro ⟨e', he'⟩
          exact ⟨e', (hins _ _).mpr (Or.inl he')⟩
      index_inserted := fun {l e} hi hd => by
        have hd : ∀ e', ¬LinkOf S s log.deleted l e' := fun e' he' => hd e' ((hdel l e').mpr he')
        rcases (hins l e).mp hi with hi | ⟨-, hl'⟩
        · exact h.index_inserted hi hd
        · by_cases hold : ∃ e', LinkOf S s log.inserted l e'
          · obtain ⟨e', he'⟩ := hold
            exact h.index_inserted he' hd
          · exact (h.index_kept (fun e' he' => hold ⟨e', he'⟩) hd).trans (hidx l hl')
      index_kept := fun {l} hi hd => by
        rw [hindex, if_neg fun hl' => hi (k, p) ((hins _ _).mpr (Or.inr ⟨rfl, hl'⟩))]
        exact h.index_kept (fun e he => hi e ((hins l e).mpr (Or.inl he)))
          fun e he => hd e ((hdel l e).mpr he) }

omit [DecidableEq Kind] [DecidableEq Idx] [DecidableEq Key] in
/-- An entry that leads to a row is a link of an inserted row only if that is the row. -/
theorem Undoes.eq_of_linkOf_inserted (h : Undoes S log s s₀) {k : Kind} {p : ℕ}
    {ls : List (Idx × Key)} (hls : s.Links S k p ls) {l : Idx × Key} (hl : l ∈ ls)
    (hidx : s.index l.1 l.2 = some p) {e : Kind × ℕ} (he : LinkOf S s log.inserted l e) :
    e = (k, p) := by
  obtain ⟨hi, ls', hls', hl'⟩ := he
  obtain ⟨ls'', hls'', hidx''⟩ := h.inserted_linked hi
  obtain rfl := hls'.unique hls''
  obtain ⟨r, -, hr⟩ := hls
  obtain ⟨r', -, hr'⟩ := hls'
  exact Prod.ext ((S.kind_of_links hr' hl').symm.trans (S.kind_of_links hr hl))
    (Option.some.inj ((hidx'' l hl').symm.trans hidx))

omit [DecidableEq Kind] [DecidableEq Idx] [DecidableEq Key] in
/-- A row that something leads to, and that was not inserted, is not unlinked. -/
theorem Undoes.not_deleted (h : Undoes S log s s₀) {k : Kind} {p : ℕ} {ls : List (Idx × Key)}
    (hls : s.Links S k p ls) (hni : p ∉ log.inserted k) {l : Idx × Key} (hl : l ∈ ls)
    (hidx : s.index l.1 l.2 = some p) : p ∉ log.deleted k := by
  intro hd
  rcases h.index_deleted (e := (k, p)) ⟨hd, ls, hls, hl⟩ with ⟨e, he⟩ | hnone
  · obtain rfl := h.eq_of_linkOf_inserted hls hl hidx he
    exact hni he.1
  · exact absurd (hidx.symm.trans hnone) (by simp)

/-- **Unlinking a row** that was not inserted on the way. -/
theorem Undoes.delete (h : Undoes S log s s₀) {k : Kind} {p : ℕ} {ls : List (Idx × Key)}
    (hls : s.Links S k p ls) (hidx : ∀ l ∈ ls, s.index l.1 l.2 = some p)
    (hni : p ∉ log.inserted k) (hnd : p ∉ log.deleted k) :
    Undoes S (log.delete k p) (s.setIndex ls none) s₀ := by
  have hindex : ∀ l : Idx × Key, (s.setIndex ls none).index l.1 l.2 =
      if l ∈ ls then none else s.index l.1 l.2 := fun l => rfl
  have hnoins : ∀ l ∈ ls, ∀ e, ¬LinkOf S s log.inserted l e := fun l hl e he => by
    obtain rfl := h.eq_of_linkOf_inserted hls hl (hidx l hl) he
    exact hni he.1
  have hnodel : ∀ l ∈ ls, ∀ e, ¬LinkOf S s log.deleted l e := fun l hl e he => by
    rcases h.index_deleted he with ⟨e', he'⟩ | hnone
    · exact hnoins l hl e' he'
    · exact absurd ((hidx l hl).symm.trans hnone) (by simp)
  have hdel : ∀ l e, LinkOf S s (log.delete k p).deleted l e ↔
      LinkOf S s log.deleted l e ∨ (e = (k, p) ∧ l ∈ ls) := by
    rintro l ⟨k', p'⟩
    by_cases hne : k' = k ∧ p' = p
    · obtain ⟨rfl, rfl⟩ := hne
      constructor
      · rintro ⟨-, ls', hls', hl'⟩
        exact Or.inr ⟨rfl, hls'.unique hls ▸ hl'⟩
      · rintro (⟨hd, -⟩ | ⟨-, hl'⟩)
        · exact absurd hd hnd
        · exact ⟨mem_delete.mpr (Or.inr ⟨rfl, rfl⟩), ls, hls, hl'⟩
    · have hne' : (k', p') ≠ (k, p) := fun heq => hne (Prod.mk.inj heq)
      simp only [LinkOf, mem_delete, hne, hne', or_false, false_and]
  exact
    { saved_live := h.saved_live
      saved_once := h.saved_once
      saved := h.saved
      kept := h.kept
      fresh := h.fresh
      inserted_nodup := h.inserted_nodup
      inserted_linked := fun {k' p'} hi => by
        obtain ⟨ls', hls', hidx'⟩ := h.inserted_linked hi
        refine ⟨ls', hls', fun l hl => ?_⟩
        rw [hindex, if_neg fun hl' => hnoins l hl' (k', p') ⟨hi, ls', hls', hl⟩, hidx' l hl]
      deleted_nodup := fun k' => by
        rw [Log.delete]
        by_cases hk : k' = k
        · subst hk
          simp only [Function.update_self]
          exact nodup_snoc (h.deleted_nodup k') hnd
        · simpa [hk] using h.deleted_nodup k'
      deleted_linked := fun {k' p'} hd => by
        rcases mem_delete.mp hd with hd | ⟨rfl, rfl⟩
        · exact h.deleted_linked hd
        · exact ⟨hni, ls, hls, fun l hl =>
            (h.index_kept (hnoins l hl) (hnodel l hl)).trans (hidx l hl)⟩
      index_deleted := fun {l e} hd => by
        rw [hindex]
        rcases (hdel l e).mp hd with hd | ⟨-, hl⟩
        · refine (h.index_deleted hd).imp_right fun hnone => ?_
          split
          · rfl
          · exact hnone
        · exact Or.inr (if_pos hl)
      index_inserted := fun {l e} hi hd =>
        h.index_inserted hi fun e' he' => hd e' ((hdel l e').mpr (Or.inl he'))
      index_kept := fun {l} hi hd => by
        rw [hindex, if_neg fun hl => hd (k, p) ((hdel _ _).mpr (Or.inr ⟨rfl, hl⟩))]
        exact h.index_kept hi fun e he => hd e ((hdel l e).mpr (Or.inl he)) }

end Log

/-! ### Stores in which every index entry is a link of the row it leads to -/

namespace Store

variable {S : Schema Kind Row Idx Key} {s : Store Kind Row Idx Key}

/-- **Indexes and rows agree**: what an entry leads to is a row with the entry among its
links, and all links of the row lead to it. -/
def Linked (S : Schema Kind Row Idx Key) (s : Store Kind Row Idx Key) : Prop :=
  ∀ (l : Idx × Key) (p : ℕ), s.index l.1 l.2 = some p →
    ∃ ls, s.Links S (S.kind l.1) p ls ∧ l ∈ ls ∧ ∀ l' ∈ ls, s.index l'.1 l'.2 = some p

omit [DecidableEq Idx] [DecidableEq Key] in
theorem Linked.write (h : s.Linked S) {k : Kind} {p : ℕ} {r r' : Row k} (hr : s.cell k p = some r)
    (hl : S.links k r' = S.links k r) : (s.setCell k p (some r')).Linked S := by
  intro l q hq
  obtain ⟨ls, hls, hrest⟩ := h l q hq
  exact ⟨ls, (Log.links_setCell hr hl _ _ _).mpr hls, hrest⟩

/-- A row that is linked nowhere may be inserted at a new address. -/
theorem Linked.insert (h : s.Linked S) {k : Kind} {p : ℕ} {r : Row k} {ls : List (Idx × Key)}
    (hfresh : s.cell k p = none) (hl : S.links k r = some ls)
    (hidx : ∀ l ∈ ls, s.index l.1 l.2 = none) :
    ((s.setCell k p (some r)).setIndex ls (some p)).Linked S := by
  intro l q hq
  rw [setIndex_index] at hq
  split at hq
  · next hin =>
    obtain rfl := Option.some.inj hq
    refine ⟨ls, ?_, hin, fun l' hl' => (setIndex_index ..).trans (if_pos hl')⟩
    rw [S.kind_of_links hl hin]
    exact ⟨r, setCell_cell_same .., hl⟩
  · next hout =>
    obtain ⟨ls', hls', hin, hidx'⟩ := h l q hq
    refine ⟨ls', hls'.congr (setCell_cell_of_ne s _ ?_), hin, fun l' hl' => ?_⟩
    · rintro ⟨rfl, rfl⟩
      obtain ⟨r', hr', -⟩ := hls'
      exact absurd (hfresh.symm.trans hr') (by simp)
    · refine (setIndex_index ..).trans ?_
      rw [if_neg fun hl'' => ?_]
      · exact hidx' l' hl'
      · exact absurd ((hidx l' hl'').symm.trans (hidx' l' hl')) (by simp)

omit [DecidableEq Idx] [DecidableEq Key] in
/-- A row that is linked nowhere may be allocated. -/
theorem Linked.alloc (h : s.Linked S) {k : Kind} {p : ℕ} (r : Row k) (hfresh : s.cell k p = none) :
    (s.setCell k p (some r)).Linked S := by
  intro l q hq
  obtain ⟨ls, hls, hrest⟩ := h l q hq
  refine ⟨ls, hls.congr (setCell_cell_of_ne s _ ?_), hrest⟩
  rintro ⟨hk, rfl⟩
  subst hk
  obtain ⟨r', hr', -⟩ := hls
  exact absurd (hfresh.symm.trans hr') (by simp)

omit [DecidableEq Kind] in
/-- A row may be linked where nothing is. -/
theorem Linked.relink (h : s.Linked S) {k : Kind} {p : ℕ} {ls : List (Idx × Key)}
    (hls : s.Links S k p ls) (hidx : ∀ l ∈ ls, s.index l.1 l.2 = none) :
    (s.setIndex ls (some p)).Linked S := by
  intro l q hq
  rw [setIndex_index] at hq
  split at hq
  · next hin =>
    obtain rfl := Option.some.inj hq
    refine ⟨ls, ?_, hin, fun l' hl' => (setIndex_index ..).trans (if_pos hl')⟩
    obtain ⟨r, hr, hl⟩ := hls
    rw [S.kind_of_links hl hin]
    exact ⟨r, hr, hl⟩
  · obtain ⟨ls', hls', hin, hidx'⟩ := h l q hq
    refine ⟨ls', hls', hin, fun l' hl' => (setIndex_index ..).trans ?_⟩
    rw [if_neg fun hl'' => ?_]
    · exact hidx' l' hl'
    · exact absurd ((hidx l' hl'').symm.trans (hidx' l' hl')) (by simp)

omit [DecidableEq Kind] in
/-- A row all links of which are cut leaves no entry behind. -/
theorem Linked.unlink (h : s.Linked S) {k : Kind} {p : ℕ} {ls : List (Idx × Key)}
    (hls : s.Links S k p ls) (hidx : ∀ l ∈ ls, s.index l.1 l.2 = some p) :
    (s.setIndex ls none).Linked S := by
  intro l q hq
  rw [setIndex_index] at hq
  split at hq
  · exact absurd hq (by simp)
  · next hout =>
    obtain ⟨ls', hls', hin, hidx'⟩ := h l q hq
    refine ⟨ls', hls', hin, fun l' hl' => (setIndex_index ..).trans ?_⟩
    rw [if_neg fun hl'' => ?_]
    · exact hidx' l' hl'
    · -- a shared link would make it the same row
      have hqp : q = p := Option.some.inj ((hidx' l' hl').symm.trans (hidx l' hl''))
      obtain ⟨r, hr, hlr⟩ := id hls
      obtain ⟨r', hr', hlr'⟩ := id hls'
      have hk : S.kind l.1 = k := (S.kind_of_links hlr' hl').symm.trans (S.kind_of_links hlr hl'')
      rw [hqp, hk] at hls'
      exact hout (hls.unique hls' ▸ hin)

omit [DecidableEq Idx] [DecidableEq Key] in
/-- A row nothing leads to may be freed. -/
theorem Linked.free (h : s.Linked S) {k : Kind} {p : ℕ}
    (hout : ∀ l : Idx × Key, S.kind l.1 = k → s.index l.1 l.2 ≠ some p) :
    (s.setCell k p none).Linked S := by
  intro l q hq
  obtain ⟨ls, hls, hrest⟩ := h l q hq
  refine ⟨ls, hls.congr (setCell_cell_of_ne s _ ?_), hrest⟩
  rintro ⟨hk, rfl⟩
  exact hout l hk hq

end Store

end TpccBench
