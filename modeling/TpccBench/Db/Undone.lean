import TpccBench.Db.Rules

/-!
# Transactions that are undone

A transaction is committed, or it is executed with a variable `undo` of its own, and its buffer is
applied or freed later. As long as buffers are applied last to first, the database is the one that
the transactions that have not been undone would have left by themselves
(`TpccBench.Turn.run_ran`).
-/

namespace TpccBench

open Prog

variable {F : Type}

/-- A transaction that has been executed, with its reply and its variable `undo`, if it has one. -/
structure Done (F : Type) where
  txn : Txn F
  reply : Reply F
  undo : Option (Option (TPCCUndo F))

/-- What a client does next. -/
inductive Turn (F : Type)
  /-- Commit a transaction. -/
  | commit (x : Txn F)
  /-- Execute a transaction with an `undo` that is null at first. -/
  | exec (x : Txn F)
  /-- Apply the buffer of the last transaction. -/
  | undo (h : HashOrder)
  /-- Free the buffer of the last transaction. -/
  | free (h : HashOrder)

/-- A buffer that may not have been allocated is applied, or freed. -/
def Op.ifAllocated (f : TPCCUndo F → Op F Unit) : Option (TPCCUndo F) → Op F Unit
  | none => pure ()
  | some u => f u

/-- **One turn**, with the transactions that have not been undone, the last one first. -/
def Turn.step [Money F] (s : Tables F × List (Done F)) : Turn F → Option (Tables F × List (Done F))
  | commit x => (x.reply.commit none s.1).map fun r => (r.2, ⟨x, r.1, none⟩ :: s.2)
  | exec x => (x.reply ⟨s.1, some none⟩).map fun r => (r.2.tables, ⟨x, r.1, r.2.undo⟩ :: s.2)
  | undo h =>
    match s.2 with
    | ⟨_, _, some o⟩ :: ds => (Op.ifAllocated (Op.applyUndo h) o s.1).map fun r => (r.2, ds)
    | _ => none
  | free h =>
    match s.2 with
    | ⟨x, r, some o⟩ :: ds => (Op.ifAllocated (Op.freeUndo h) o s.1).map fun r' => (r'.2, ⟨x, r, none⟩ :: ds)
    | _ => none

variable [Money F]

/-- **The transactions of the list, one after the other**, the last one first, on the database. -/
inductive Db.Ran (db₀ : Db F) : List (Done F) → Db F → Prop
  | nil : Ran db₀ [] db₀
  | cons {ds db db' d} {y : Dx F (Reply F)} : Ran db₀ ds db → db.Keyed → d.txn.OnDb y →
    y db = some (d.reply, db') → Ran db₀ (d :: ds) db'

/-- **The tables after the transactions**: the buffers lead back, the last one first. -/
inductive Unwinds (t₀ : Tables F) : List (Done F) → Tables F → Prop
  | base {t} : t.contents = t₀.contents → Unwinds t₀ [] t
  | exec {ds t t' d} {y : Dx F (Reply F)} : Unwinds t₀ ds t → t'.Sound → d.txn.OnDb y →
    y t.db = some (d.reply, t'.db) → (∀ o, d.undo = some o → Journals t (o.getD Log.empty) t') → Unwinds t₀ (d :: ds) t'

variable {t₀ t t' : Tables F} {ds ds' : List (Done F)}

theorem Unwinds.sound (h₀ : t₀.Sound) (h : Unwinds t₀ ds t) : t.Sound := by
  cases h with
  | base hc => exact h₀.of_contents hc
  | exec _ hs => exact hs

/-- **What has run** is what has not been undone. -/
theorem Unwinds.ran (h₀ : t₀.Sound) (h : Unwinds t₀ ds t) : Db.Ran t₀.db ds t.db := by
  induction h with
  | base hc =>
    rw [Tables.db_of_contents hc]
    exact Db.Ran.nil
  | exec hunwinds _ hon hy _ ih => exact Db.Ran.cons ih (hunwinds.sound h₀).keyed hon hy

theorem Unwinds.congr (h : Unwinds t₀ ds t) (hc : t'.contents = t.contents) (hn : ∀ k, t.rest.next k ≤ t'.rest.next k) :
    Unwinds t₀ ds t' := by
  cases h with
  | base h => exact Unwinds.base (hc.trans h)
  | exec hunwinds hs hon hy hj =>
    rw [← Tables.db_of_contents hc] at hy
    exact Unwinds.exec hunwinds (hs.of_contents hc) hon hy fun o ho => (hj o ho).congr hc hn

omit [Money F] in
/-- Rows that are found have not been taken over. -/
theorem Journals.not_deleted_of_lookup {u : TPCCUndo F} (hj : Journals t₀ u t) {k : Kind} {id : RowId k} {p : Ptr}
    (hp : t.lookup k id = some p) : p ∉ u.deleted k := by
  intro hd
  obtain ⟨l, hl, hidx⟩ := Option.bind_eq_some_iff.mp hp
  obtain ⟨ls, hls, hmem, -⟩ := hj.linked l p hidx
  have hls : t.store.Links (schema F) k p ls := kind_of_primary hl ▸ hls
  exact hj.undoes.not_deleted hls (hj.undoes.deleted_linked hd).1 hmem hidx hd

omit [Money F] in
/-- **Without what a buffer has taken over**, the database is the same. -/
theorem Without.db {u : TPCCUndo F} (hw : Without u t t') (hj : Journals t₀ u t) : t'.db = t.db := by
  have hitems : t'.items = t.items := congrArg Rest.items hw.rest
  have hhist : t'.history = t.history := congrArg Rest.history hw.rest
  refine Db.ext hitems (funext fun k => funext fun id => ?_) ?_
  · rw [Tables.row_eq, Tables.row_eq, Tables.lookup_congr hw.index]
    cases hp : t.lookup k id with
    | none => rfl
    | some p => exact (hw.cell k p).trans (if_neg (hj.not_deleted_of_lookup hp))
  · refine (congrArg (List.filterMap _) hhist).trans (List.filterMap_congr fun p _ => ?_)
    rw [hw.cell, hj.deleted .history (by decide), if_neg List.not_mem_nil]

omit [Money F] in
theorem Without.named_iff {u : TPCCUndo F} (hw : Without u t t') :
    (∀ p ∈ t'.customersByName, ∃ key, t'.store.index (.tree .customers) key = some p) ↔
      ∀ p ∈ t.customersByName, ∃ key, t.store.index (.tree .customers) key = some p := by
  have hname : t'.customersByName = t.customersByName := congrArg Rest.customersByName hw.rest
  rw [hname, hw.index]

/-- **Executing** a transaction does to the database what committing it does, and can be undone. -/
theorem Txn.exec_onDb (ht : t.Sound) {x : Txn F} {r : Reply F} {c : Call F}
    (h : x.reply ⟨t, some none⟩ = some (r, c)) :
    c.tables.Sound ∧ (∃ y, x.OnDb y ∧ y t.db = some (r, c.tables.db)) ∧
      ∀ o, c.undo = some o → Journals t (o.getD Log.empty) c.tables := by
  have hrel := x.reply_journaled t ht.linked
  rw [h] at hrel
  cases hnull : x.reply ⟨t, none⟩ with
  | none =>
    rw [hnull] at hrel
    nomatch hrel
  | some r' =>
    obtain ⟨r', c'⟩ := r'
    rw [hnull] at hrel
    cases hrel with
    | some hr =>
      obtain ⟨rfl, o, ho, -, hj, hw, -⟩ := hr
      have hcommit : x.reply.commit none t = some (r, c'.tables) := by rw [Tx.commit, hnull]; rfl
      obtain ⟨hs, y, hon, hy⟩ := Txn.commit_onDb ht hcommit
      refine ⟨⟨hj.wellFormed ht.toWellFormed, hw.named_iff.mp hs.named⟩, ⟨y, hon, ?_⟩, fun o' ho' => ?_⟩
      · rw [hy, hw.db hj]
      · obtain rfl : o = o' := Option.some.inj (ho.symm.trans ho')
        exact hj

/-- **A turn** leaves tables of which the transactions that are not undone can be unwound. -/
theorem Unwinds.step (h₀ : t₀.Sound) (h : Unwinds t₀ ds t) {a : Turn F} (hstep : a.step (t, ds) = some (t', ds')) :
    Unwinds t₀ ds' t' := by
  have ht := h.sound h₀
  cases a with
  | commit x =>
    obtain ⟨⟨r, t₁⟩, hrun, heq⟩ := Option.map_eq_some_iff.mp hstep
    obtain ⟨rfl, rfl⟩ := Prod.mk.inj heq
    obtain ⟨hs, y, hon, hy⟩ := Txn.commit_onDb ht hrun
    exact Unwinds.exec h hs hon hy fun o ho => absurd ho (by simp)
  | exec x =>
    obtain ⟨⟨r, c⟩, hrun, heq⟩ := Option.map_eq_some_iff.mp hstep
    obtain ⟨rfl, rfl⟩ := Prod.mk.inj heq
    obtain ⟨hs, ⟨y, hon, hy⟩, hj⟩ := Txn.exec_onDb ht hrun
    exact Unwinds.exec h hs hon hy hj
  | undo o =>
    cases h with
    | base => exact absurd hstep (by simp [Turn.step])
    | @exec ds t₁ _ d y hunwinds hs hon hy hj =>
      obtain ⟨x, r, undo⟩ := d
      match undo, hstep with
      | some none, hstep =>
        obtain ⟨rfl, rfl⟩ := Prod.mk.inj (Option.some.inj hstep)
        exact hunwinds.congr (hj none rfl).contents (hj none rfl).next_le
      | some (some u), hstep =>
        obtain ⟨⟨_, t₂⟩, hrun, heq⟩ := Option.map_eq_some_iff.mp hstep
        obtain ⟨rfl, rfl⟩ := Prod.mk.inj heq
        obtain ⟨t₃, hrun', hc, hn⟩ := (hj (some u) rfl).applyUndo o
        obtain rfl : t₃ = t₂ := congrArg Prod.snd (Option.some.inj (hrun'.symm.trans hrun))
        exact hunwinds.congr hc fun k => by rw [hn]; exact (hj (some u) rfl).next_le k
  | free o =>
    cases h with
    | base => exact absurd hstep (by simp [Turn.step])
    | @exec ds t₁ _ d y hunwinds hs hon hy hj =>
      obtain ⟨x, r, undo⟩ := d
      match undo, hstep with
      | some none, hstep =>
        obtain ⟨rfl, rfl⟩ := Prod.mk.inj (Option.some.inj hstep)
        exact Unwinds.exec hunwinds hs hon hy fun o ho => absurd ho (by simp)
      | some (some u), hstep =>
        obtain ⟨⟨_, t₂⟩, hrun, heq⟩ := Option.map_eq_some_iff.mp hstep
        obtain ⟨rfl, rfl⟩ := Prod.mk.inj heq
        have hj := hj (some u) rfl
        obtain ⟨t₃, hrun', hw⟩ := hj.freeUndo o
        obtain rfl : t₃ = t₂ := congrArg Prod.snd (Option.some.inj (hrun'.symm.trans hrun))
        have hs' : t₃.Sound := ⟨hw.wellFormed hj (hunwinds.sound h₀).toWellFormed, hw.named_iff.mpr hs.named⟩
        rw [← hw.db hj] at hy
        exact Unwinds.exec hunwinds hs' hon hy fun o ho => absurd ho (by simp)

/-- **After a run**, the database is the one of the transactions that have not been undone. -/
theorem Turn.run_ran (h₀ : t₀.Sound) {turns : List (Turn F)}
    (h : Run.result Turn.step (t₀, []) turns = some (t, ds)) : t.Sound ∧ Db.Ran t₀.db ds t.db := by
  have hunwinds : Unwinds t₀ ds t := by
    induction turns using List.reverseRecOn generalizing t ds with
    | nil =>
      obtain ⟨rfl, rfl⟩ := Prod.mk.inj (Option.some.inj h)
      exact Unwinds.base rfl
    | append_singleton turns a ih =>
      rw [Run.result_snoc] at h
      obtain ⟨⟨t₁, ds₁⟩, h₁, h⟩ := Option.bind_eq_some_iff.mp h
      exact (ih h₁).step h₀ h
  exact ⟨hunwinds.sound h₀, hunwinds.ran h₀⟩

end TpccBench
