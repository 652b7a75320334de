import TpccBench.Db.Posting
import TpccBench.Lib.Register

/-!
# The history as a register

History rows come with payments, and go when payments are undone, in any order and while others
come. `eraseHistory` fills the gap with the last row, so that a row may have been moved many times
before it goes. The history is a register all the same (`TpccBench.Register`): the rows that were
there at first stay in front, in order, and behind them is every row that came and has not gone,
once.

The way there is an invariant of the tables and of the rows that have come (`TpccBench.Ledger.Inv`),
which every step preserves, saying of it only what it does to the list (`TpccBench.Ledger.Moves`).
-/

namespace TpccBench

open Prog Op Register

variable {F : Type}

/-! ### What is done -/

/-- A row that has come: its address, what was inserted, and the buffer of the payment if it had one. -/
structure Posted (F : Type) where
  row : Ptr
  entry : History F
  undo : Option (TPCCUndo F)

/-- The tables, and the rows that have come. -/
structure Ledger (F : Type) where
  tables : Tables F
  posted : List (Posted F)

/-- What is done to the history. -/
inductive HistoryAction (F : Type)
  | insert (h : History F)
  /-- Execute a payment, with a null `undo` or with one of its own. -/
  | pay (x : Txn F) (own : Bool)
  /-- Erase the row that came as number `i`. -/
  | erase (i : ℕ)
  /-- Apply the buffer of the payment with which it came. -/
  | undo (i : ℕ) (h : HashOrder)

namespace HistoryAction

/-- What it is to a register. -/
def act : HistoryAction F → Act
  | insert _ | pay _ _ => .add
  | erase i | undo i _ => .remove i

/-- **Do it.** The row of a payment is the last one of the history then. -/
def step [Money F] (s : Ledger F) : HistoryAction F → Option (Ledger F)
  | insert h => (insertHistory h s.tables).map fun r => ⟨r.2, s.posted ++ [⟨r.1, h, none⟩]⟩
  | pay x own => do
    let r ← x.reply ⟨s.tables, if own then some none else none⟩
    let row ← r.2.tables.history.getLast?
    let entry ← r.2.tables.cell .history row
    return ⟨r.2.tables, s.posted ++ [⟨row, entry, r.2.buffer⟩]⟩
  | erase i => do
    let p ← s.posted[i]?
    let r ← eraseHistory p.row s.tables
    return { s with tables := r.2 }
  | undo i h => do
    let p ← s.posted[i]?
    let u ← p.undo
    let r ← applyUndo h u s.tables
    return { s with tables := r.2 }

/-- The actions with which rows came. -/
def insertions (done : List (HistoryAction F)) : List (HistoryAction F) := done.filter fun a => a.act = .add

/-- **What is asked of an action**: a payment finds its rows, as they are in the tables `t`, and only a
row that came and has not gone is removed. To be undone, its payment must have had a buffer. -/
def Allowed (t : Tables F) (done : List (HistoryAction F)) : HistoryAction F → Prop
  | insert _ => True
  | pay x _ => x.Payable t
  | erase i => i ∈ live (done.map act)
  | undo i _ => i ∈ live (done.map act) ∧ ∃ x, (insertions done)[i]? = some (pay x true)

/-- **The row is the one that came with the action.** -/
def Brings (a : HistoryAction F) (p : Posted F) : Prop :=
  match a with
  | insert h => p.entry = h
  | pay x own => x.Records p.entry ∧ p.undo.isSome = own
  | erase _ | undo _ _ => False

end HistoryAction

namespace Ledger

open HistoryAction

variable {t : Tables F} {done : List (HistoryAction F)} {s s' : Ledger F}

/-- **The rows that came and have not gone**, as they came. -/
def kept (s : Ledger F) (done : List (HistoryAction F)) : List (Posted F) := entries s.posted (live (done.map act))

/-- What a step does to the list of the history. -/
inductive Moves (s s' : Ledger F) : Act → Prop
  | add {p} : s'.posted = s.posted ++ [p] → s'.tables.history = s.tables.history ++ [p.row] → Moves s s' .add
  | remove {i p} : s.posted[i]? = some p → s'.posted = s.posted →
    eraseFrom p.row s.tables.history = some s'.tables.history → Moves s s' (.remove i)

/-- **The invariant.** -/
structure Inv (t : Tables F) (done : List (HistoryAction F)) (s : Ledger F) : Prop where
  proper : Run.Each Proper (done.map act)
  same : t.SameRows s.tables
  posted : List.Forall₂ Brings (insertions done) s.posted
  /-- Each row has an address of its own, which was new. -/
  nodup : (s.posted.map Posted.row).Nodup
  bounds {p : Posted F} : p ∈ s.posted → t.rest.next .history ≤ p.row ∧ p.row < s.tables.rest.next .history
  history : ∃ l, s.tables.history = t.history ++ l ∧ l.Perm ((s.kept done).map Posted.row)
  entry {p : Posted F} : p ∈ s.kept done → s.tables.store.cell .history p.row = some p.entry
  old {p : Ptr} : p < t.rest.next .history → s.tables.store.cell .history p = t.store.cell .history p
  buffer {p : Posted F} {u : TPCCUndo F} : p ∈ s.posted → p.undo = some u → Posts t [p.row] u

theorem Inv.start (t : Tables F) : Inv t [] ⟨t, []⟩ where
  proper := Run.each_nil
  same := .refl t
  posted := .nil
  nodup := List.nodup_nil
  bounds h := absurd h List.not_mem_nil
  history := ⟨[], (List.append_nil _).symm, .refl _⟩
  entry h := absurd h List.not_mem_nil
  old _ := rfl
  buffer h := absurd h List.not_mem_nil

theorem added_map (done : List (HistoryAction F)) : added (done.map act) = (insertions done).length := by
  rw [added, List.count, List.countP_map, insertions, ← List.countP_eq_length_filter]
  exact List.countP_congr fun a _ => by simp

namespace Inv

variable (h : Inv t done s)
include h

theorem length : s.posted.length = added (done.map act) := by
  rw [added_map, h.posted.length_eq]

omit h in
theorem mem_of_kept {p : Posted F} (hp : p ∈ s.kept done) : p ∈ s.posted := by
  obtain ⟨i, -, hi⟩ := mem_entries.mp hp
  exact List.mem_of_getElem? hi

theorem exists_posted {i : ℕ} (hi : i ∈ live (done.map act)) : ∃ p, s.posted[i]? = some p ∧ p ∈ s.kept done := by
  have hlt : i < s.posted.length := by
    rw [h.length]
    exact (mem_live.mp hi).1
  have hget : s.posted[i]? = some s.posted[i] := List.getElem?_eq_getElem hlt
  exact ⟨s.posted[i], hget, mem_entries.mpr ⟨i, hi, hget⟩⟩

theorem nodup_kept : ((s.kept done).map Posted.row).Nodup := by
  rw [kept, map_entries]
  exact nodup_entries h.nodup (nodup_live _)

/-- The tables are sound on the way. -/
theorem sound (ht : t.Sound) : s.tables.Sound := by
  refine h.same.sound ht fun p hp => ?_
  obtain ⟨l, hl, hperm⟩ := h.history
  rw [hl] at hp
  rcases List.mem_append.mp hp with hp | hp
  · have hlive := ht.history p hp
    rw [h.old (lt_next_of_live hlive)]
    exact hlive
  · obtain ⟨q, hq, rfl⟩ := List.mem_map.mp (hperm.mem_iff.mp hp)
    rw [h.entry hq]
    rfl

/-- A payment that finds its rows in the tables `t` finds them on the way. -/
theorem payable [Money F] (ht : t.Sound) {x : Txn F} (hx : x.Payable t) : x.Payable s.tables := by
  have hrow : ∀ {k : Kind} {id : RowId k}, k ≠ .history → (t.db.row k id).isSome → (s.tables.db.row k id).isSome :=
    fun {k id} hk hid => (h.same.isSome_row hk id).trans hid
  cases hx with
  | paymentHome hw hd hnow => exact .paymentHome (hrow (by decide) hw) (hrow (by decide) hd) hnow
  | payment hw hd hnow hc => exact .payment (hrow (by decide) hw) (hrow (by decide) hd) hnow (hrow (by decide) hc)
  | paymentByName hw hd hnow hwho =>
    have hwho' := hwho.evolves (h.same.evolves fun p hp => h.old hp) ht (h.sound ht) h.same.names h.same.nameKey_row
    exact .paymentByName (hrow (by decide) hw) (hrow (by decide) hd) hnow hwho'

/-- **A row comes.** -/
theorem add {a : HistoryAction F} (ha : a.act = .add) {p : Posted F} {t' : Tables F}
    (hsame : s.tables.SameRows t') (hhist : t'.history = s.tables.history ++ [p.row])
    (hle : s.tables.rest.next .history ≤ p.row) (hlt : p.row < t'.rest.next .history)
    (hcell : t'.store.cell .history p.row = some p.entry)
    (hother : ∀ q, q ≠ p.row → t'.store.cell .history q = s.tables.store.cell .history q) (hb : a.Brings p)
    (hu : ∀ u, p.undo = some u → Posts s.tables [p.row] u) : Inv t (done ++ [a]) ⟨t', s.posted ++ [p]⟩ := by
  have hact : (done ++ [a]).map act = done.map act ++ [.add] := by rw [List.map_append, List.map_singleton, ha]
  have hfresh : ∀ {q : Posted F}, q ∈ s.posted → q.row ≠ p.row := fun {q} hq heq =>
    absurd (h.bounds hq).2 (not_lt.mpr (heq ▸ hle))
  have hget : (s.posted ++ [p])[s.posted.length]? = some p := by simp
  have hkept : kept ⟨t', s.posted ++ [p]⟩ (done ++ [a]) = s.kept done ++ [p] := by
    have hold : ∀ i ∈ live (done.map act), i < s.posted.length := fun i hi => by
      rw [h.length]
      exact (mem_live.mp hi).1
    rw [kept, hact, live_add h.proper, entries_append, entries_concat hold, ← h.length, entries_singleton hget]
    rfl
  obtain ⟨l, hl, hperm⟩ := h.history
  refine
    { proper := ?_
      same := h.same.trans hsame
      posted := ?_
      nodup := ?_
      bounds := fun {q} hq => ?_
      history := ⟨l ++ [p.row], ?_, ?_⟩
      entry := fun {q} hq => ?_
      old := fun {q} hq => ?_
      buffer := fun {q u} hq hqu => ?_ }
  · rw [hact]
    exact Run.each_snoc.mpr ⟨h.proper, trivial⟩
  · have hins : insertions (done ++ [a]) = insertions done ++ [a] := by simp [insertions, ha]
    rw [hins]
    exact List.rel_append h.posted (.cons hb .nil)
  · rw [List.map_append, List.nodup_append]
    refine ⟨h.nodup, List.nodup_singleton _, fun q hq r hr => ?_⟩
    obtain ⟨q', hq', rfl⟩ := List.mem_map.mp hq
    obtain rfl := List.mem_singleton.mp hr
    exact hfresh hq'
  · rcases List.mem_append.mp hq with hq | hq
    · exact ⟨(h.bounds hq).1, lt_of_lt_of_le (h.bounds hq).2 (hsame.next_le .history)⟩
    · obtain rfl := List.mem_singleton.mp hq
      exact ⟨(h.same.next_le .history).trans hle, hlt⟩
  · rw [hhist, hl, List.append_assoc]
  · rw [hkept, List.map_append]
    exact hperm.append_right _
  · rw [hkept] at hq
    rcases List.mem_append.mp hq with hq | hq
    · rw [hother _ (hfresh (mem_of_kept hq))]
      exact h.entry hq
    · obtain rfl := List.mem_singleton.mp hq
      exact hcell
  · rw [hother q fun heq => ?_, h.old hq]
    exact absurd hq (not_lt.mpr (heq ▸ (h.same.next_le .history).trans hle))
  · rcases List.mem_append.mp hq with hq | hq
    · exact h.buffer hq hqu
    · obtain rfl := List.mem_singleton.mp hq
      exact (hu u hqu).of_same h.same

/-- **A row that is there is found**, and the list goes on without it. -/
theorem exists_eraseFrom {i : ℕ} (hi : i ∈ live (done.map act)) {p : Posted F} (hp : s.posted[i]? = some p) :
    ∃ l, eraseFrom p.row s.tables.history = some (t.history ++ l) ∧
      l.Perm ((entries s.posted ((live (done.map act)).erase i)).map Posted.row) := by
  obtain ⟨l, hl, hperm⟩ := h.history
  have hrows := (perm_entries_erase hi hp).map Posted.row
  have hmem : p.row ∈ l := hperm.mem_iff.mpr (hrows.mem_iff.mpr List.mem_cons_self)
  obtain ⟨l', hfrom, hl'⟩ := eraseFrom_append (l := t.history) (hperm.nodup_iff.mpr h.nodup_kept) hmem
  refine ⟨l', by rw [hl, hfrom], hl'.trans ?_⟩
  have herase := (hperm.trans hrows).erase p.row
  rwa [List.map_cons, List.erase_cons_head] at herase

/-- **A row goes.** -/
theorem remove {a : HistoryAction F} {i : ℕ} (ha : a.act = .remove i) (hi : i ∈ live (done.map act)) {p : Posted F}
    (hp : s.posted[i]? = some p) {l : List Ptr} (hfrom : eraseFrom p.row s.tables.history = some l) {t' : Tables F}
    (hout : s.tables.TakesOut p.row l t') : Inv t (done ++ [a]) { s with tables := t' } := by
  have hact : (done ++ [a]).map act = done.map act ++ [.remove i] := by rw [List.map_append, List.map_singleton, ha]
  have hkept : kept { s with tables := t' } (done ++ [a]) = entries s.posted ((live (done.map act)).erase i) := by
    rw [kept, hact, live_remove]
  obtain ⟨l', hfrom', hperm⟩ := h.exists_eraseFrom hi hp
  refine
    { proper := ?_
      same := h.same.trans hout.same
      posted := ?_
      nodup := h.nodup
      bounds := fun {q} hq => ⟨(h.bounds hq).1, lt_of_lt_of_le (h.bounds hq).2 (hout.same.next_le .history)⟩
      history := ⟨l', ?_, ?_⟩
      entry := fun {q} hq => ?_
      old := fun {q} hq => ?_
      buffer := h.buffer }
  · rw [hact]
    exact Run.each_snoc.mpr ⟨h.proper, hi⟩
  · have hins : insertions (done ++ [a]) = insertions done := by simp [insertions, ha]
    rw [hins]
    exact h.posted
  · rw [hout.history]
    exact Option.some.inj (hfrom.symm.trans hfrom')
  · rw [hkept]
    exact hperm
  · rw [hkept] at hq
    have hrows := (perm_entries_erase hi hp).map Posted.row
    have hnd := hrows.nodup_iff.mp h.nodup_kept
    have hne : q.row ≠ p.row := fun heq =>
      (List.nodup_cons.mp hnd).1 (heq ▸ List.mem_map_of_mem hq)
    rw [hout.cell, if_neg hne]
    exact h.entry ((perm_entries_erase hi hp).mem_iff.mpr (List.mem_cons_of_mem _ hq))
  · have hne : q ≠ p.row := fun heq =>
      absurd hq (not_lt.mpr (heq ▸ (h.bounds (List.mem_of_getElem? hp)).1))
    rw [hout.cell, if_neg hne]
    exact h.old hq

/-- The row that came with an action. -/
theorem brings {i : ℕ} {a : HistoryAction F} {p : Posted F} (ha : (insertions done)[i]? = some a)
    (hp : s.posted[i]? = some p) : a.Brings p := by
  obtain ⟨hi, rfl⟩ := List.getElem?_eq_some_iff.mp ha
  obtain ⟨hi', rfl⟩ := List.getElem?_eq_some_iff.mp hp
  exact h.posted.get hi hi'

end Inv

end Ledger

/-! ### What happens -/

section Run

variable [Money F] {t : Tables F} {done : List (HistoryAction F)} {s : Ledger F}

open HistoryAction

/-- **What is allowed does not fail**, and keeps the invariant. -/
theorem HistoryAction.step_inv (ht : t.Sound) (h : Ledger.Inv t done s) {a : HistoryAction F}
    (ha : a.Allowed t done) : ∃ s', a.step s = some s' ∧ Ledger.Inv t (done ++ [a]) s' ∧ s.Moves s' a.act := by
  cases a with
  | insert e =>
    obtain ⟨t', hrun, hstore, hrest⟩ := insertHistory_apply s.tables e
    have hhist : t'.history = s.tables.history ++ [s.tables.rest.next .history] := congrArg Rest.history hrest
    have hnext : ∀ k, s.tables.rest.next k ≤ t'.rest.next k := fun k => by
      rw [hrest]
      exact s.tables.rest.next_le_bump .history k
    refine ⟨_, by rw [step, hrun]; rfl, ?_, .add rfl hhist⟩
    refine h.add rfl (.of_history hstore (congrArg Rest.customersByName hrest) hnext) hhist le_rfl ?_ ?_ ?_ rfl ?_
    · rw [hrest]
      simp [Rest.bump]
    · rw [hstore, Store.setCell_cell_same]
    · intro q hq
      rw [hstore, Store.setCell_cell_of_ne _ _ fun h => hq h.2]
    · exact fun u hu => absurd hu (by simp)
  | pay x own =>
    have hx := h.payable ht ha
    obtain ⟨⟨r, c⟩, hrun⟩ := Option.isSome_iff_exists.mp (hx.isSome (h.sound ht) own)
    have hvar : Posts.Var s.tables [] own (if own then some none else none) := by
      cases own with
      | false => exact .null
      | true => exact .unset
    obtain ⟨p, e, hrec, hpay⟩ := Txn.reply_posts hx hvar hrun
    obtain ⟨hle, hlt, hcell⟩ := hpay.entry (List.mem_singleton_self (p, e))
    have hhist : c.tables.history = s.tables.history ++ [p] := hpay.history
    have hbuffer : c.buffer.isSome = own ∧ ∀ u, c.buffer = some u → Posts s.tables [p] u := by
      have hundo := hpay.undo
      rw [Call.buffer]
      generalize c.undo = o at hundo
      cases hundo with
      | null => exact ⟨rfl, fun u hu => absurd hu (by simp)⟩
      | buffer hu => exact ⟨rfl, fun u heq => Option.some.inj heq ▸ hu⟩
    have hlast : c.tables.history.getLast? = some p := by rw [hhist, List.getLast?_concat]
    have hread : c.tables.cell .history p = some e := hcell
    refine ⟨⟨c.tables, s.posted ++ [⟨p, e, c.buffer⟩]⟩, ?_, ?_, .add rfl hhist⟩
    · rw [step, hrun]
      simp only [Option.bind_eq_bind, Option.bind_some, hlast, hread]
      rfl
    · refine h.add rfl hpay.same hhist hle hlt hcell (fun q hq => hpay.old ?_) ⟨hrec, hbuffer.1⟩ hbuffer.2
      simpa using hq
  | erase i =>
    obtain ⟨p, hp, hkept⟩ := h.exists_posted ha
    obtain ⟨l, hfrom, -⟩ := h.exists_eraseFrom ha hp
    obtain ⟨t', hrun, hout⟩ := eraseHistory_takesOut hfrom (by rw [h.entry hkept]; rfl)
    refine ⟨{ s with tables := t' }, ?_, h.remove rfl ha hp hfrom hout, .remove hp rfl (hout.history ▸ hfrom)⟩
    rw [step, hp]
    simp only [Option.bind_eq_bind, Option.bind_some, hrun]
    rfl
  | undo i o =>
    obtain ⟨hi, x, hx⟩ := ha
    obtain ⟨p, hp, hkept⟩ := h.exists_posted hi
    obtain ⟨l, hfrom, -⟩ := h.exists_eraseFrom hi hp
    obtain ⟨u, hu⟩ := Option.isSome_iff_exists.mp (h.brings hx hp).2
    obtain ⟨t', hrun, hout⟩ := applyUndo_takesOut (h.buffer (List.mem_of_getElem? hp) hu) h.same hfrom
      (by rw [h.entry hkept]; rfl) o
    refine ⟨{ s with tables := t' }, ?_, h.remove rfl hi hp hfrom hout, .remove hp rfl (hout.history ▸ hfrom)⟩
    rw [step, hp]
    simp only [Option.bind_eq_bind, Option.bind_some, hu, hrun]
    rfl

/-- **Removals in reverse order** leave what was there below what has come since. -/
theorem HistoryAction.run_lastFirst (ht : t.Sound) {first rest : List (HistoryAction F)}
    (h : Ledger.Inv t first s) (hrest : Run.Each (fun done a => a.Allowed t (first ++ done)) rest)
    (hlast : Run.Each (fun done a => LastFirst (first.map act) (done.map act) a.act) rest) :
    ∃ s', Run.result step s rest = some s' ∧ Ledger.Inv t (first ++ rest) s' ∧
      ∃ new, live ((first ++ rest).map act) = live (first.map act) ++ new ∧
        s'.tables.history = s.tables.history ++ (entries s'.posted new).map Posted.row := by
  refine Run.induction (I := fun done s' => Ledger.Inv t (first ++ done) s' ∧
      ∃ new, live ((first ++ done).map act) = live (first.map act) ++ new ∧
        s'.tables.history = s.tables.history ++ (entries s'.posted new).map Posted.row) ?_ ?_ (hrest.and hlast)
  · exact ⟨by rwa [List.append_nil], [], by simp, by simp [entries]⟩
  · rintro done a s₁ - ⟨hinv, new, hnew, hhist⟩ ⟨ha, hlifo⟩
    obtain ⟨s₂, hstep, hinv₂, hmoves⟩ := step_inv ht hinv ha
    refine ⟨s₂, hstep, by rwa [← List.append_assoc], ?_⟩
    rw [← List.append_assoc, List.map_append, List.map_singleton]
    generalize a.act = b at hmoves hlifo
    cases hmoves with
    | @add p hposted hhist₂ =>
      have hold : ∀ i ∈ new, i < s₁.posted.length := fun i hi => by
        rw [hinv.length]
        exact (mem_live.mp (hnew ▸ List.mem_append_right _ hi)).1
      have hget : (s₁.posted ++ [p])[s₁.posted.length]? = some p := by simp
      refine ⟨new ++ [s₁.posted.length], ?_, ?_⟩
      · rw [live_add hinv.proper, hnew, hinv.length, List.append_assoc]
      · rw [hhist₂, hhist, hposted, entries_append, entries_concat hold, entries_singleton hget, List.map_append,
          List.append_assoc]
        rfl
    | @remove i p hp hposted hfrom =>
      rw [List.map_append] at hnew
      obtain ⟨new', rfl, hlive⟩ := hlifo.live_remove hnew
      refine ⟨new', by rw [List.map_append, hlive], ?_⟩
      rw [hhist, entries_append, entries_singleton hp, List.map_append, List.map_singleton, ← List.append_assoc,
        eraseFrom_concat] at hfrom
      rw [← Option.some.inj hfrom, hposted]

/-- **What the history holds** after the actions: in front the rows that were there, behind them every row
that came and has not gone, once, and all of them as they were. -/
structure Ledger.Holds (t : Tables F) (done : List (HistoryAction F)) (s : Ledger F) : Prop where
  posted : List.Forall₂ Brings (insertions done) s.posted
  history : ∃ l, s.tables.history = t.history ++ l ∧ l.Perm ((s.kept done).map Posted.row)
  once : ((s.kept done).map Posted.row).Nodup
  new {p : Posted F} : p ∈ s.kept done → p.row ∉ t.history
  entry {p : Posted F} : p ∈ s.kept done → s.tables.cell .history p.row = some p.entry
  old {p : Ptr} : p ∈ t.history → s.tables.cell .history p = t.cell .history p

omit [Money F] in
theorem Ledger.Inv.holds (ht : t.Sound) (h : Ledger.Inv t done s) : Ledger.Holds t done s where
  posted := h.posted
  history := h.history
  once := h.nodup_kept
  new hp hmem := absurd (lt_next_of_live (ht.history _ hmem)) (not_lt.mpr (h.bounds (Ledger.Inv.mem_of_kept hp)).1)
  entry := h.entry
  old hp := h.old (lt_next_of_live (ht.history _ hp))

/-- **Rows come and go in any order.** Whatever payments insert, and whichever of their rows are removed, no
assertion fails and the history holds what came and has not gone. Where all that came after some of the
actions has gone again, the last one first, the history is what it was, in its order. -/
theorem history_exact (ht : t.Sound) {acts : List (HistoryAction F)}
    (h : Run.Each (HistoryAction.Allowed t) acts) :
    ∃ s, Run.result HistoryAction.step ⟨t, []⟩ acts = some s ∧ Ledger.Holds t acts s ∧
      ∀ first rest s₁, acts = first ++ rest → Run.result HistoryAction.step ⟨t, []⟩ first = some s₁ →
        Run.Each (fun done a => LastFirst (first.map act) (done.map act) a.act) rest →
        live (acts.map act) = live (first.map act) → s.tables.history = s₁.tables.history := by
  have hrun : ∀ {done : List (HistoryAction F)}, Run.Each (HistoryAction.Allowed t) done →
      ∃ s, Run.result HistoryAction.step ⟨t, []⟩ done = some s ∧ Ledger.Inv t done s :=
    Run.induction (.start t) fun done a s _ hinv ha => by
      obtain ⟨s', hstep, hinv', -⟩ := step_inv ht hinv ha
      exact ⟨s', hstep, hinv'⟩
  obtain ⟨s, hs, hinv⟩ := hrun h
  refine ⟨s, hs, hinv.holds ht, ?_⟩
  rintro first rest s₁ rfl hs₁ hlast hlive
  obtain ⟨s₁', hs₁', hinv₁⟩ := hrun (h.of_initial (List.prefix_append first rest))
  obtain rfl := Option.some.inj (hs₁.symm.trans hs₁')
  have hrest : Run.Each (fun done a => Allowed t (first ++ done) a) rest := fun done a hd =>
    h (first ++ done) a (by rw [List.append_assoc]; exact (List.prefix_append_right_inj first).mpr hd)
  obtain ⟨s', hs', -, new, hnew, hhist⟩ := run_lastFirst ht hinv₁ hrest hlast
  rw [Run.result_append, hs₁, Option.bind_some] at hs
  obtain rfl := Option.some.inj (hs.symm.trans hs')
  have hnil : new = [] := by
    rw [hlive] at hnew
    exact List.append_right_eq_self.mp hnew.symm
  rw [hhist, hnil]
  exact List.append_nil _

end Run

/-- A payment of the small database. -/
def smallPayment : Txn ℚ := .paymentHome 1 1 1 1 1 5 (List.replicate 14 '0')

theorem smallPayment_payable : smallPayment.Payable smallTables :=
  .paymentHome (by decide +kernel) (by decide +kernel) (by decide)

/-- Three rows come, and the one in the middle goes. -/
def smallHistory : List (HistoryAction ℚ) :=
  [.pay smallPayment true, .insert ⟨1, 1, 1, 1, 1, 5, .empty, .empty⟩, .pay smallPayment false, .erase 1]

/-- Two more come, and go the last one first. -/
def smallHistory' : List (HistoryAction ℚ) :=
  [.insert ⟨1, 1, 1, 1, 1, 7, .empty, .empty⟩, .pay smallPayment true, .undo 4 .asInserted, .erase 3]

theorem history_exact_small :
    ∃ s s₁, Run.result HistoryAction.step ⟨smallTables, []⟩ (smallHistory ++ smallHistory') = some s ∧
      Run.result HistoryAction.step ⟨smallTables, []⟩ smallHistory = some s₁ ∧
      Ledger.Holds smallTables (smallHistory ++ smallHistory') s ∧ s.tables.history = s₁.tables.history := by
  have hpay := smallPayment_payable
  have hacts : Run.Each (HistoryAction.Allowed smallTables) (smallHistory ++ smallHistory') := by
    refine Run.each_iff_getElem.mpr fun i hi => ?_
    match i, hi with
    | 0, _ => exact hpay
    | 1, _ => trivial
    | 2, _ => exact hpay
    | 3, _ => exact (by decide : 1 ∈ live [.add, .add, .add])
    | 4, _ => trivial
    | 5, _ => exact hpay
    | 6, _ => exact ⟨(by decide : 4 ∈ live [.add, .add, .add, .remove 1, .add, .add]), smallPayment, rfl⟩
    | 7, _ => exact (by decide : 3 ∈ live [.add, .add, .add, .remove 1, .add, .add, .remove 4])
  obtain ⟨s, hs, hholds, hlast⟩ := history_exact smallTables_sound hacts
  obtain ⟨s₁, hs₁, -⟩ := history_exact smallTables_sound (hacts.of_initial (List.prefix_append _ _))
  have hlifo : Run.Each (fun done a => LastFirst (smallHistory.map HistoryAction.act)
      (done.map HistoryAction.act) a.act) smallHistory' := by decide
  exact ⟨s, s₁, hs, hs₁, hholds, hlast _ _ s₁ rfl hs₁ hlifo (by decide)⟩

end TpccBench
