import TpccBench.Tables.Store
import TpccBench.Tables.Transactions

/-!
# A transaction and its undo buffer

Two runs of a transaction side by side: one that fills an undo buffer, and one whose
parameter `undo` is null. The relation between the two that every statement keeps
(`TpccBench.Paired`) says of the first run that its buffer undoes the way it has come, and of the
second that its tables are those of the first without the rows the buffer has taken over.

Neither is true between the statements that belong together. A row that is linked but not
yet collected is *pending* (`TpccBench.Log.addAll`); saving and reading a row, and unlinking a
new-order row and handing it over, are one step each here.
-/

namespace TpccBench

open Prog

variable {F : Type}

/-! ### The two relations -/

/-- The buffer, with rows it has still to collect. -/
def Log.addAll (u : TPCCUndo F) (pending : List (Kind × Ptr)) : TPCCUndo F :=
  pending.foldl (fun u e => u.insert e.1 e.2) u

/-- The rows `save` has an overload for. -/
def savedKinds : List Kind := [.warehouse, .district, .customer, .stock, .order, .orderLine]

/-- The rows `inserted` has an overload for. -/
def insertedKinds : List Kind := [.order, .orderLine, .newOrder, .history]

/-- **The buffer undoes the way** from the tables `t₀` to the tables `t`. -/
structure Journals (t₀ : Tables F) (u : TPCCUndo F) (t : Tables F) : Prop where
  undoes : u.Undoes (schema F) t.store t₀.store
  linked : t.store.Linked (schema F)
  items : t.rest.items = t₀.rest.items
  customersByName : t.rest.customersByName = t₀.rest.customersByName
  history : ∃ l, t.rest.history = t₀.rest.history ++ l ∧ l.Perm (u.inserted .history)
  modified : ∀ k, k ∉ savedKinds → u.modified k = []
  inserted : ∀ k, k ∉ insertedKinds → u.inserted k = []
  /-- Only new-order rows are ever deleted. -/
  deleted : ∀ k, k ≠ .newOrder → u.deleted k = []
  next_le : ∀ k, t₀.rest.next k ≤ t.rest.next k
  /-- The inserted rows have new addresses. -/
  next_le_inserted : ∀ k, ∀ p ∈ u.inserted k, t₀.rest.next k ≤ p

/-- The tables `t'` are the tables `t` without the rows the buffer has unlinked. -/
structure Without (u : TPCCUndo F) (t t' : Tables F) : Prop where
  index : t'.store.index = t.store.index
  cell : ∀ k p, t'.store.cell k p = if p ∈ u.deleted k then none else t.store.cell k p
  rest : t'.rest = t.rest

/-- A call with a buffer, possibly not allocated yet, and a call with a null `undo`. -/
def Open (t₀ : Tables F) (X : TPCCUndo F → Tables F → Prop) (c c' : Call F) : Prop :=
  ∃ o, c.undo = some o ∧ c'.undo = none ∧ Journals t₀ (o.getD Log.empty) c.tables ∧
    Without (o.getD Log.empty) c.tables c'.tables ∧ X (o.getD Log.empty) c.tables

/-- **A call with a buffer and a call with a null `undo`**, some rows of the first not yet
collected. -/
def Paired (t₀ : Tables F) (pending : List (Kind × Ptr)) (X : TPCCUndo F → Tables F → Prop)
    (c c' : Call F) : Prop :=
  ∃ u, c.undo = some (some u) ∧ c'.undo = none ∧ Journals t₀ (u.addAll pending) c.tables ∧
    Without u c.tables c'.tables ∧ X u c.tables

/-- What is said of the buffer and the tables besides may speak of the collected rows, of the
indexes and of the new-order rows. -/
def Stable (X : TPCCUndo F → Tables F → Prop) : Prop :=
  ∀ ⦃u u' t t'⦄, u'.inserted = u.inserted → t'.store.index = t.store.index →
    t'.store.cell .newOrder = t.store.cell .newOrder → X u t → X u' t'

/-- The pointer leads to the row. -/
def Known (k : Kind) (p : Option Ptr) (r : Row F k) (t : Tables F) : Prop :=
  ∃ q, p = some q ∧ t.store.cell k q = some r

/-- The buffer has an image of the row the pointer leads to. -/
def Saved (k : Kind) (p : Option Ptr) (u : TPCCUndo F) : Prop :=
  ∃ q r₀, p = some q ∧ (q, r₀) ∈ u.modified k

/-! ### Operations that only look -/

/-- The tables look the same to an operation that reads no new-order row. -/
structure Alike (t t' : Tables F) : Prop where
  index : t'.store.index = t.store.index
  cell : ∀ k, k ≠ .newOrder → t'.store.cell k = t.store.cell k
  items : t'.items = t.items
  customersByName : t'.customersByName = t.customersByName

theorem Alike.refl (t : Tables F) : Alike t t := ⟨rfl, fun _ _ => rfl, rfl, rfl⟩

/-- The operation changes nothing, and its result is the same on tables that look the
same. -/
def Query {α : Type} (x : Op F α) : Prop :=
  ∀ t t', Alike t t' → Option.Rel (fun r r' => r.1 = r'.1 ∧ r.2 = t ∧ r'.2 = t') (x t) (x t')

namespace Query

variable {α β : Type}

theorem pure (a : α) : Query (F := F) (Pure.pure a) := fun _ _ _ => Option.Rel.some ⟨rfl, rfl, rfl⟩

theorem bind {x : Op F α} {f : α → Op F β} (hx : Query x) (hf : ∀ a, Query (f a)) :
    Query (x >>= f) := by
  intro t t' h
  have hrel := hx t t' h
  rw [bind_apply, bind_apply]
  cases hxt : x t with
  | none =>
    rw [hxt] at hrel
    cases hxt' : x t' with
    | none => exact Option.Rel.none
    | some r' =>
      rw [hxt'] at hrel
      nomatch hrel
  | some r =>
    rw [hxt] at hrel
    cases hxt' : x t' with
    | none =>
      rw [hxt'] at hrel
      nomatch hrel
    | some r' =>
      rw [hxt'] at hrel
      cases hrel with
      | some hr =>
        obtain ⟨a, s⟩ := r
        obtain ⟨a', s'⟩ := r'
        obtain ⟨rfl, rfl, rfl⟩ : a = a' ∧ s = t ∧ s' = t' := hr
        exact hf a s s' h

theorem assert (p : Prop) [Decidable p] : Query (F := F) (Prog.assert p) := by
  intro t t' _
  rw [Prog.assert, Prog.assert]
  by_cases hp : p
  · rw [if_pos hp, if_pos hp]
    exact Option.Rel.some ⟨rfl, rfl, rfl⟩
  · rw [if_neg hp, if_neg hp]
    exact Option.Rel.none

theorem lift (o : Option α) : Query (F := F) (liftM o) := by
  intro t t' _
  rw [lift_apply, lift_apply]
  cases o with
  | none => exact Option.Rel.none
  | some a => exact Option.Rel.some ⟨rfl, rfl, rfl⟩

theorem foldlM {f : β → α → Op F β} (h : ∀ b a, Query (f b a)) (l : List α) (b : β) :
    Query (l.foldlM f b) := by
  induction l generalizing b with
  | nil => exact pure b
  | cons a l ih =>
    rw [List.foldlM_cons]
    exact (h b a).bind ih

theorem findIn (n : TreeName) (key : ℤ) : Query (F := F) (Op.findIn n key) := by
  intro t t' h
  refine Option.Rel.some ⟨?_, rfl, rfl⟩
  exact (congrFun (congrFun h.index (.tree n)) key).symm

theorem findItem (id : ℤ) : Query (F := F) (Op.findItem id) := by
  intro t t' h
  rw [Op.findItem, Op.findItem, h.items]
  split
  · exact Option.Rel.some ⟨rfl, rfl, rfl⟩
  · exact Option.Rel.none

theorem lowerBoundNewOrder (key : ℤ) : Query (F := F) (Op.lowerBoundNewOrder key) := by
  intro t t' h
  have hmap : t'.neworders = t.neworders :=
    OrderedMap.ext_find fun k => congrFun (congrFun h.index .neworders) k
  exact Option.Rel.some ⟨by rw [hmap], rfl, rfl⟩

theorem deref {k : Kind} (hk : k ≠ .newOrder) (p : Option Ptr) : Query (F := F) (Op.deref k p) := by
  intro t t' h
  cases p with
  | none => exact Option.Rel.none
  | some p =>
    rw [Op.deref_apply, Op.deref_apply, h.cell k hk]
    cases t.store.cell k p with
    | none => exact Option.Rel.none
    | some r => exact Option.Rel.some ⟨rfl, rfl, rfl⟩

theorem byName : Query (F := F) Op.byName := by
  intro t t' h
  have hcell : t'.cell .customer = t.cell .customer := h.cell .customer (by decide)
  rw [Op.byName, Op.byName, h.customersByName, hcell]
  cases t.customersByName.mapM fun p =>
      (t.cell .customer p).map fun c => (p, Op.nameKey c) with
  | none => exact Option.Rel.none
  | some l => exact Option.Rel.some ⟨rfl, rfl, rfl⟩

theorem findWarehouse (w : ℤ) : Query (F := F) (Op.findWarehouse w) := findIn .warehouses w

theorem findStock (w s : ℤ) : Query (F := F) (Op.findStock w s) :=
  (lift _).bind fun key => findIn .stock key

theorem findDistrict (w d : ℤ) : Query (F := F) (Op.findDistrict w d) :=
  (lift _).bind fun key => findIn .districts key

theorem findCustomer (w d c : ℤ) : Query (F := F) (Op.findCustomer w d c) :=
  (lift _).bind fun key => findIn .customers key

theorem findOrder (w d o : ℤ) : Query (F := F) (Op.findOrder w d o) :=
  (lift _).bind fun key => findIn .orders key

theorem findOrderLine (w d o n : ℤ) : Query (F := F) (Op.findOrderLine w d o n) :=
  (lift _).bind fun key => findIn .orderlines key

theorem findCustomerByName (w d : ℤ) (cLast : List Char) :
    Query (F := F) (Op.findCustomerByName w d cLast) :=
  (assert _).bind fun _ => byName.bind fun _ => (assert _).bind fun _ => (assert _).bind fun _ =>
    (foldlM (fun _ _ => (assert _).bind fun _ => pure _) _ _).bind fun _ =>
      (assert _).bind fun _ => pure _

theorem findAndValidateItems (items : List NewOrderItem) :
    Query (F := F) (Tx.findAndValidateItems items) := by
  induction items with
  | nil => exact pure _
  | cons item items ih =>
    refine (findItem item.iId).bind fun tuple => ?_
    cases tuple with
    | none => exact pure _
    | some tuple => exact ih.bind fun _ => pure _

end Query

/-! ### The rules -/

theorem Op.tx_apply {α : Type} (x : Op F α) (c : Call F) :
    x.tx c = (x c.tables).map fun r => (r.1, { c with tables := r.2 }) := rfl

variable {t₀ : Tables F} {X Y : TPCCUndo F → Tables F → Prop} {c c' : Call F}

@[simp] theorem Log.addAll_nil (u : TPCCUndo F) : u.addAll [] = u := rfl

theorem Log.addAll_cons (u : TPCCUndo F) (e : Kind × Ptr) (pending : List (Kind × Ptr)) :
    u.addAll (e :: pending) = Log.addAll (u.insert e.1 e.2) pending := rfl

theorem Log.addAll_snoc (u : TPCCUndo F) (pending : List (Kind × Ptr)) (e : Kind × Ptr) :
    u.addAll (pending ++ [e]) = (u.addAll pending).insert e.1 e.2 := by
  simp [addAll]

@[simp] theorem Log.addAll_deleted (u : TPCCUndo F) (pending : List (Kind × Ptr)) :
    (u.addAll pending).deleted = u.deleted := by
  induction pending generalizing u with
  | nil => rfl
  | cons e pending ih => exact ih _

@[simp] theorem Log.addAll_modified (u : TPCCUndo F) (pending : List (Kind × Ptr)) :
    (u.addAll pending).modified = u.modified := by
  induction pending generalizing u with
  | nil => rfl
  | cons e pending ih => exact ih _

/-- A collected row is collected once. -/
theorem Log.nodup_of_addAll {u : TPCCUndo F} {pending : List (Kind × Ptr)} {k : Kind}
    (h : ((u.addAll pending).inserted k).Nodup) : (u.inserted k).Nodup := by
  induction pending generalizing u with
  | nil => exact h
  | cons e pending ih =>
    have hmore := ih h
    by_cases hk : k = e.1
    · subst hk
      rw [Log.insert_inserted_same] at hmore
      exact (List.nodup_append.mp hmore).1
    · rwa [Log.insert_inserted_of_ne _ _ hk] at hmore

theorem Without.alike {u : TPCCUndo F} {t t' : Tables F} (h : Without u t t')
    (hd : ∀ k, k ≠ .newOrder → u.deleted k = []) : Alike t t' where
  index := h.index
  cell k hk := by
    refine funext fun p => ?_
    rw [h.cell, hd k hk, if_neg List.not_mem_nil]
  items := congrArg Rest.items h.rest
  customersByName := congrArg Rest.customersByName h.rest

theorem Open.alike (h : Open t₀ X c c') : Alike c.tables c'.tables := by
  obtain ⟨o, -, -, hj, hw, -⟩ := h
  exact hw.alike hj.deleted

theorem Paired.alike {pending : List (Kind × Ptr)} (h : Paired t₀ pending X c c') :
    Alike c.tables c'.tables := by
  obtain ⟨u, -, -, hj, hw, -⟩ := h
  exact hw.alike fun k hk => by rw [← hj.deleted k hk, Log.addAll_deleted]

theorem Open.mono (h : Open t₀ X c c') (hXY : ∀ u t, X u t → Y u t) : Open t₀ Y c c' := by
  obtain ⟨o, ho, hc', hj, hw, hX⟩ := h
  exact ⟨o, ho, hc', hj, hw, hXY _ _ hX⟩

theorem Paired.mono {pending : List (Kind × Ptr)} (h : Paired t₀ pending X c c')
    (hXY : ∀ u t, X u t → Y u t) : Paired t₀ pending Y c c' := by
  obtain ⟨u, hc, hc', hj, hw, hX⟩ := h
  exact ⟨u, hc, hc', hj, hw, hXY _ _ hX⟩

theorem Paired.mono' {pending : List (Kind × Ptr)} (h : Paired t₀ pending X c c')
    (hXY : ∀ u, X u c.tables → Y u c.tables) : Paired t₀ pending Y c c' := by
  obtain ⟨u, hc, hc', hj, hw, hX⟩ := h
  exact ⟨u, hc, hc', hj, hw, hXY _ hX⟩

theorem Paired.toOpen (h : Paired t₀ [] X c c') : Open t₀ X c c' := by
  obtain ⟨u, hc, hc', hj, hw, hX⟩ := h
  exact ⟨some u, hc, hc', hj, hw, hX⟩

/-- **Looking.** -/
theorem Sim.query {α : Type} {P : Call F → Call F → Prop} {x : Op F α} (hx : Query x)
    (hP : ∀ c c', P c c' → Alike c.tables c'.tables) :
    Sim P x.tx x.tx fun a b c c' => a = b ∧ x c.tables = some (a, c.tables) ∧ P c c' := by
  intro c c' hc
  rw [Op.tx_apply, Op.tx_apply]
  have hrel := hx c.tables c'.tables (hP c c' hc)
  cases hxc : x c.tables with
  | none =>
    rw [hxc] at hrel
    cases hxc' : x c'.tables with
    | none => exact Option.Rel.none
    | some r' =>
      rw [hxc'] at hrel
      nomatch hrel
  | some r =>
    rw [hxc] at hrel
    cases hxc' : x c'.tables with
    | none =>
      rw [hxc'] at hrel
      nomatch hrel
    | some r' =>
      rw [hxc'] at hrel
      cases hrel with
      | some hr =>
        obtain ⟨a, s⟩ := r
        obtain ⟨a', s'⟩ := r'
        obtain ⟨rfl, rfl, rfl⟩ : a = a' ∧ s = c.tables ∧ s' = c'.tables := hr
        exact Option.Rel.some ⟨rfl, hxc, hc⟩

theorem known_of_deref {k : Kind} {p : Option Ptr} {r : Row F k} {t : Tables F}
    (h : Op.deref k p t = some (r, t)) : Known k p r t := by
  obtain ⟨q, rfl, h⟩ := Option.bind_eq_some_iff.mp h
  obtain ⟨r', hr', h⟩ := Option.map_eq_some_iff.mp h
  obtain rfl := congrArg Prod.fst h
  exact ⟨q, rfl, hr'⟩

/-- **Looking**, when what is found does not matter. -/
theorem Sim.look {α : Type} {P : Call F → Call F → Prop} {x : Op F α} (hx : Query x)
    (hP : ∀ c c', P c c' → Alike c.tables c'.tables) :
    Sim P x.tx x.tx fun a b c c' => a = b ∧ P c c' :=
  (Sim.query hx hP).post fun _ _ _ _ h => ⟨h.1, h.2.2⟩

/-- **Reading a row.** -/
theorem Sim.read {pending : List (Kind × Ptr)} {k : Kind} (hk : k ≠ .newOrder) (p : Option Ptr) :
    Sim (Paired t₀ pending X) (Op.deref k p).tx (Op.deref k p).tx fun r r' c c' =>
      r = r' ∧ Paired t₀ pending (fun u t => Known k p r t ∧ X u t) c c' := by
  refine (Sim.query (Query.deref hk p) fun c c' => Paired.alike).post fun r r' c c' h => ?_
  obtain ⟨rfl, hread, u, hc, hc', hj, hw, hX⟩ := h
  exact ⟨rfl, u, hc, hc', hj, hw, known_of_deref hread, hX⟩

theorem Sim.read_open {k : Kind} (hk : k ≠ .newOrder) (p : Option Ptr) :
    Sim (Open t₀ X) (Op.deref k p).tx (Op.deref k p).tx fun r r' c c' =>
      r = r' ∧ Open t₀ (fun u t => Known k p r t ∧ X u t) c c' := by
  refine (Sim.query (Query.deref hk p) fun c c' => Open.alike).post fun r r' c c' h => ?_
  obtain ⟨rfl, hread, u, hc, hc', hj, hw, hX⟩ := h
  exact ⟨rfl, u, hc, hc', hj, hw, known_of_deref hread, hX⟩

/-- **Allocating a buffer.** -/
theorem Sim.allocateUndo : Sim (Open t₀ X) Tx.allocateUndo Tx.allocateUndo fun a b c c' =>
    a = b ∧ Paired t₀ [] X c c' := by
  rintro c c' ⟨o, hc, hc', hj, hw, hX⟩
  refine Option.Rel.some ⟨rfl, o.getD Log.empty, ?_, ?_, hj, hw, hX⟩
  · simp only [hc, Option.map_some]
  · simp only [hc', Option.map_none]

theorem ne_newOrder_of_saved {k : Kind} (h : k ∈ savedKinds) : k ≠ .newOrder := by
  rintro rfl
  exact absurd h (by decide)

/-- **Saving a row** that is known. -/
theorem Sim.save (hX : Stable X) {k : Kind} (hk : k ∈ savedKinds) {p : Option Ptr} {r : Row F k} :
    Sim (Paired t₀ [] fun u t => Known k p r t ∧ X u t) (Tx.save k p) (Tx.save k p)
      fun a b c c' =>
        a = b ∧ Paired t₀ [] (fun u t => Saved k p u ∧ Known k p r t ∧ X u t) c c' := by
  rintro c c' ⟨u, hc, hc', hj, hw, ⟨q, rfl, hr⟩, hXu⟩
  have hr' : c.tables.cell k q = some r := hr
  simp only [Tx.save, hc, hc', Option.bind_some, hr', Option.map_some]
  refine Option.Rel.some ⟨trivial, u.save k q r, rfl, hc', ?_, ?_, ?_, ⟨q, rfl, hr⟩, ?_⟩
  · exact
      { undoes := hj.undoes.save hr
        linked := hj.linked
        items := hj.items
        customersByName := hj.customersByName
        history := by rw [Log.addAll_nil, Log.save_inserted]; exact hj.history
        modified := fun k' hk' => by
          have hne : k' ≠ k := fun heq => hk' (heq ▸ hk)
          exact (Log.save_modified_of_ne u q r hne).trans (hj.modified k' hk')
        inserted := by rw [Log.addAll_nil, Log.save_inserted]; exact hj.inserted
        deleted := by rw [Log.addAll_nil, Log.save_deleted]; exact hj.deleted
        next_le := hj.next_le
        next_le_inserted := by rw [Log.addAll_nil, Log.save_inserted]; exact hj.next_le_inserted }
  · exact ⟨hw.index, fun k' p' => by rw [Log.save_deleted]; exact hw.cell k' p', hw.rest⟩
  · obtain ⟨r₀, hr₀⟩ := u.exists_mem_save k q r
    exact ⟨q, r₀, rfl, hr₀⟩
  · exact hX (Log.save_inserted _ _ _) rfl rfl hXu

/-- **Saving and reading a row.** A null or dangling pointer stops both runs, if not at the
same statement. -/
theorem Sim.save_read {α : Type} {R : α → α → Call F → Call F → Prop} (hX : Stable X) {k : Kind}
    (hk : k ∈ savedKinds) {p : Option Ptr} {f g : Row F k → Tx F α}
    (h : ∀ r, Sim (Paired t₀ [] fun u t => Saved k p u ∧ Known k p r t ∧ X u t) (f r) (g r) R) :
    Sim (Paired t₀ [] X) (Tx.save k p >>= fun _ => (Op.deref k p).tx >>= f)
      (Tx.save k p >>= fun _ => (Op.deref k p).tx >>= g) R := by
  intro c c' hcc
  have hno : k ≠ .newOrder := ne_newOrder_of_saved hk
  have hsame := (hcc.alike).cell k hno
  by_cases hlive : ∃ r, Known k p r c.tables
  · obtain ⟨r, hr⟩ := hlive
    refine (Sim.save hX hk).bind_eq (fun _ => ?_) c c' (hcc.mono' fun u hXu => ⟨hr, hXu⟩)
    refine (Sim.read hno p).bind_eq fun r' => (h r').pre fun c c' hc => hc.mono fun u t hu => ?_
    exact ⟨hu.2.1, hu.1, hu.2.2.2⟩
  · obtain ⟨u, hc, hc', -⟩ := hcc
    cases p with
    | none =>
      simp only [bind_apply, Tx.save, hc, hc', Option.bind_none, Option.bind_some, Op.tx_apply]
      exact Option.Rel.none
    | some q =>
      have hdead : c.tables.cell k q = none :=
        Option.eq_none_iff_forall_ne_some.mpr fun r hr => hlive ⟨r, q, rfl, hr⟩
      have hdead' : c'.tables.store.cell k q = none := (congrFun hsame q).trans hdead
      simp only [bind_apply, Tx.save, hc, hc', Option.bind_some, hdead, Option.map_none,
        Option.bind_none, Op.tx_apply, Op.deref_apply, hdead']
      exact Option.Rel.none

/-- **Writing a row** that is saved, its links as they were. -/
theorem Sim.assign (hX : Stable X) {k : Kind} (hks : k ∈ savedKinds) {p : Option Ptr} {r r' : Row F k}
    (hl : rowLinks k r' = rowLinks k r) :
    Sim (Paired t₀ [] fun u t => Saved k p u ∧ Known k p r t ∧ X u t) (Op.assign k p r').tx
      (Op.assign k p r').tx fun a b c c' => a = b ∧ Paired t₀ [] X c c' := by
  rintro c c' ⟨u, hc, hc', hj, hw, ⟨q, r₀, hpq, hsaved⟩, ⟨q', hpq', hr⟩, hXu⟩
  have hk : k ≠ .newOrder := ne_newOrder_of_saved hks
  obtain rfl := hpq'
  obtain rfl := Option.some.inj hpq
  have hdel : u.deleted k = [] := hj.deleted k hk
  have hr' : c'.tables.store.cell k q' = some r := by
    rw [hw.cell, hdel, if_neg List.not_mem_nil, hr]
  obtain ⟨t, hrun, hstore, hrest⟩ := Op.assign_of_live c.tables (by rw [hr]; rfl) r'
  obtain ⟨t', hrun', hstore', hrest'⟩ := Op.assign_of_live c'.tables (by rw [hr']; rfl) r'
  rw [Op.tx_apply, Op.tx_apply, hrun, hrun']
  refine Option.Rel.some ⟨rfl, u, hc, hc', ?_, ?_, ?_⟩
  · exact
      { undoes := by
          rw [hstore]
          exact hj.undoes.write ⟨r₀, hsaved⟩ hr hl
        linked := by
          rw [hstore]
          exact hj.linked.write hr hl
        items := by rw [hrest]; exact hj.items
        customersByName := by rw [hrest]; exact hj.customersByName
        history := by rw [hrest]; exact hj.history
        modified := hj.modified
        inserted := hj.inserted
        deleted := hj.deleted
        next_le := by rw [hrest]; exact hj.next_le
        next_le_inserted := hj.next_le_inserted }
  · refine ⟨?_, fun k' q => ?_, by rw [hrest', hrest]; exact hw.rest⟩
    · rw [hstore, hstore']
      exact hw.index
    · rw [hstore, hstore']
      by_cases h : k' = k ∧ q = q'
      · obtain ⟨rfl, rfl⟩ := h
        rw [Store.setCell_cell_same, Store.setCell_cell_same, hdel, if_neg List.not_mem_nil]
      · rw [Store.setCell_cell_of_ne _ _ h, Store.setCell_cell_of_ne _ _ h]
        exact hw.cell k' q
  · refine hX rfl ?_ ?_ hXu
    · exact (congrArg Store.index hstore).trans rfl
    · rw [hstore]
      funext q
      exact Store.setCell_cell_of_ne _ _ fun h => hk h.1.symm

/-- Nothing more is said. -/
def Any (_ : TPCCUndo F) (_ : Tables F) : Prop := True

theorem Any.stable : Stable (F := F) Any := fun _ _ _ _ _ _ _ _ => trivial

/-- A row that is not allocated is not marked as deleted. -/
theorem Journals.not_deleted {u : TPCCUndo F} {t : Tables F} (h : Journals t₀ u t) {k : Kind}
    {p : Ptr} (hp : t.store.cell k p = none) : p ∉ u.deleted k := by
  intro hd
  obtain ⟨-, ls, ⟨r, hr, -⟩, -⟩ := h.undoes.deleted_linked hd
  exact absurd (hp.symm.trans hr) (by simp)

/-- The tables stay alike when a row is allocated and linked. -/
theorem Without.insert {u : TPCCUndo F} {t t' : Tables F} (h : Without u t t') {k : Kind} {p : Ptr}
    (hp : p ∉ u.deleted k) {t₁ t₁' : Tables F} {r : Row F k} {ls : List (Index × ℤ)}
    (hstore : t₁.store = (t.store.setCell k p (some r)).setIndex ls (some p))
    (hstore' : t₁'.store = (t'.store.setCell k p (some r)).setIndex ls (some p))
    (hrest : t₁'.rest = t₁.rest) : Without u t₁ t₁' := by
  refine ⟨?_, fun k' q => ?_, hrest⟩
  · rw [hstore, hstore']
    simp only [Store.setIndex, Store.setCell_index, h.index]
  · rw [hstore, hstore', Store.setIndex_cell, Store.setIndex_cell]
    by_cases heq : k' = k ∧ q = p
    · obtain ⟨rfl, rfl⟩ := heq
      rw [Store.setCell_cell_same, Store.setCell_cell_same, if_neg hp]
    · rw [Store.setCell_cell_of_ne _ _ heq, Store.setCell_cell_of_ne _ _ heq]
      exact h.cell k' q

/-- **Inserting a row**, to be collected. -/
theorem Sim.insert {pending : List (Kind × Ptr)} {x : Op F Ptr} {k : Kind} (hki : k ∈ insertedKinds)
    (hk : k ≠ .history) {r : Row F k} (hx : Op.Inserts x k r) :
    Sim (Paired t₀ pending Any) x.tx x.tx fun p p' c c' =>
      p = p' ∧ Paired t₀ (pending ++ [(k, p)]) Any c c' := by
  rintro c c' ⟨u, hc, hc', hj, hw, -⟩
  have hnext : c'.tables.rest.next k = c.tables.rest.next k := by rw [hw.rest]
  rw [Op.tx_apply, Op.tx_apply]
  rcases hx c.tables with ⟨ls, t, hls, hidx, hrun, hstore, hrest⟩ | ⟨hrun, hocc⟩ <;>
    rcases hx c'.tables with ⟨ls', t', hls', hidx', hrun', hstore', hrest'⟩ | ⟨hrun', hocc'⟩
  · obtain rfl := Option.some.inj (hls.symm.trans hls')
    rw [hrun, hrun']
    rw [hnext] at hstore' ⊢
    have hnone : c.tables.store.cell k (c.tables.rest.next k) = none := c.tables.cell_next k
    refine Option.Rel.some ⟨rfl, u, hc, hc', ?_, ?_, trivial⟩
    · rw [Log.addAll_snoc]
      exact
        { undoes := by
            rw [hstore]
            exact hj.undoes.insert hnone hls hidx
          linked := by
            rw [hstore]
            exact hj.linked.insert hnone hls hidx
          items := by rw [hrest]; exact hj.items
          customersByName := by rw [hrest]; exact hj.customersByName
          history := by
            obtain ⟨l, hl, hperm⟩ := hj.history
            refine ⟨l, by rw [hrest]; exact hl, ?_⟩
            rwa [Log.insert_inserted_of_ne _ _ fun h => hk h.symm]
          modified := hj.modified
          inserted := fun k' hk' => by
            have hne : k' ≠ k := fun heq => hk' (heq ▸ hki)
            exact (Log.insert_inserted_of_ne _ _ hne).trans (hj.inserted k' hk')
          deleted := hj.deleted
          next_le := by rw [hrest]; exact fun k' => (hj.next_le k').trans (Rest.next_le_bump ..)
          next_le_inserted := fun k' q hq => by
            rcases Log.mem_insert.mp hq with hq | ⟨rfl, rfl⟩
            · exact hj.next_le_inserted k' q hq
            · exact hj.next_le _ }
    · refine hw.insert ?_ hstore hstore' (by rw [hrest, hrest', hw.rest])
      rw [← u.addAll_deleted pending]
      exact hj.not_deleted hnone
  · obtain ⟨l, hl, hne⟩ := hocc' ls hls
    rw [hw.index] at hne
    exact absurd (hidx l hl) hne
  · obtain ⟨l, hl, hne⟩ := hocc ls' hls'
    rw [← hw.index] at hne
    exact absurd (hidx' l hl) hne
  · rw [hrun, hrun']
    exact Option.Rel.none

/-- **Appending a history row**, to be collected. -/
theorem Sim.insertHistory (h : History F) :
    Sim (Paired t₀ [] Any) (Op.insertHistory h).tx (Op.insertHistory h).tx fun p p' c c' =>
      p = p' ∧ Paired t₀ [(.history, p)] Any c c' := by
  rintro c c' ⟨u, hc, hc', hj, hw, -⟩
  have hnext : c'.tables.rest.next .history = c.tables.rest.next .history := by rw [hw.rest]
  obtain ⟨t, hrun, hstore, hrest⟩ := Op.insertHistory_apply c.tables h
  obtain ⟨t', hrun', hstore', hrest'⟩ := Op.insertHistory_apply c'.tables h
  rw [Op.tx_apply, Op.tx_apply, hrun, hrun']
  rw [hnext] at hstore' hrest' ⊢
  have hnone : c.tables.store.cell .history (c.tables.rest.next .history) = none :=
    c.tables.cell_next .history
  -- a history row has no links, so that linking it does nothing
  have hlinked : ∀ s : Store Kind (Row F) Index ℤ, s.setIndex [] (some (c.tables.rest.next .history)) = s :=
    fun s => by simp [Store.setIndex]
  rw [← hlinked (c.tables.store.setCell _ _ _)] at hstore
  rw [← hlinked (c'.tables.store.setCell _ _ _)] at hstore'
  refine Option.Rel.some ⟨rfl, u, hc, hc', ?_, ?_, trivial⟩
  · obtain ⟨l, hl, hperm⟩ := hj.history
    exact
      { undoes := by
          rw [hstore]
          exact hj.undoes.insert hnone rfl fun _ hm => absurd hm List.not_mem_nil
        linked := by
          rw [hstore]
          exact hj.linked.insert hnone rfl fun _ hm => absurd hm List.not_mem_nil
        items := by rw [hrest]; exact hj.items
        customersByName := by rw [hrest]; exact hj.customersByName
        history := by
          refine ⟨l ++ [c.tables.rest.next .history], ?_, ?_⟩
          · rw [hrest]
            simp only [hl, List.append_assoc]
          · rw [Log.addAll_cons, Log.addAll_nil, Log.insert_inserted_same]
            exact List.Perm.append_right _ hperm
        modified := hj.modified
        inserted := fun k hk => by
          have hmem : Kind.history ∈ insertedKinds := by decide
          have hne : k ≠ .history := fun heq => hk (heq ▸ hmem)
          exact (Log.insert_inserted_of_ne u _ hne).trans (hj.inserted k hk)
        deleted := hj.deleted
        next_le := by rw [hrest]; exact fun k => (hj.next_le k).trans (Rest.next_le_bump ..)
        next_le_inserted := fun k q hq => by
          rcases Log.mem_insert.mp hq with hq | ⟨rfl, rfl⟩
          · exact hj.next_le_inserted k q hq
          · exact hj.next_le _ }
  · refine hw.insert (hj.not_deleted hnone) hstore hstore' ?_
    rw [hrest, hrest', hw.rest]

/-- **Collecting an inserted row.** -/
theorem Sim.inserted {k : Kind} {p : Ptr} {pending : List (Kind × Ptr)} :
    Sim (Paired t₀ ((k, p) :: pending) Any) (Tx.inserted k p) (Tx.inserted k p) fun a b c c' =>
      a = b ∧ Paired t₀ pending Any c c' := by
  rintro c c' ⟨u, hc, hc', hj, hw, -⟩
  have hnew : p ∉ u.inserted k := by
    have hnd : ((Log.insert u k p).inserted k).Nodup :=
      Log.nodup_of_addAll (hj.undoes.inserted_nodup k)
    rw [Log.insert_inserted_same] at hnd
    exact fun hp => (List.nodup_append.mp hnd).2.2 p hp p (List.mem_singleton_self p) rfl
  simp only [Tx.inserted, hc, hc', if_neg hnew]
  exact Option.Rel.some ⟨trivial, u.insert k p, rfl, hc', hj, ⟨hw.index, hw.cell, hw.rest⟩, trivial⟩

/-! ### Taking a new-order row

`delivery` unlinks the row and hands it over to the buffer, or deletes it. -/

/-- The row `delivery` takes in a district. -/
def Tables.oldestNewOrder (t : Tables F) (warehouseId dId : ℤ) : Option Ptr := do
  let key ← makeNewOrderKey .checked warehouseId dId 1
  let (_, p) ← t.neworders.lowerBound key
  let no : NewOrder ← t.cell .newOrder p
  guard (no.noDId = dId ∧ no.noWId = warehouseId)
  return p

/-- In these districts the row `delivery` takes has not been inserted on the way. -/
def Untaken (warehouseId : ℤ) (ds : List ℤ) (u : TPCCUndo F) (t : Tables F) : Prop :=
  ∀ d ∈ ds, ∀ p, t.oldestNewOrder warehouseId d = some p → p ∉ u.inserted .newOrder

theorem neworders_of_index {t t' : Tables F} (h : t'.store.index .neworders = t.store.index .neworders) :
    t'.neworders = t.neworders :=
  OrderedMap.ext_find fun key => congrFun h key

theorem Untaken.stable (warehouseId : ℤ) (ds : List ℤ) : Stable (F := F) (Untaken warehouseId ds) := by
  intro u u' t t' hi hidx hcell h d hd p hp
  rw [hi]
  refine h d hd p ?_
  have hmap : t'.neworders = t.neworders := neworders_of_index (congrFun hidx .neworders)
  have hcell : t'.cell .newOrder = t.cell .newOrder := hcell
  rwa [Tables.oldestNewOrder, hmap, hcell] at hp

/-- Links of a new-order row. -/
theorem newOrder_of_index {t : Tables F} (h : t.store.Linked (schema F)) {key : ℤ} {p : Ptr}
    (hp : t.store.index .neworders key = some p) :
    ∃ no : NewOrder, t.store.cell .newOrder p = some no ∧
      makeNewOrderKey .checked no.noWId no.noDId no.noOId = some key := by
  obtain ⟨ls, ⟨no, hno, hls⟩, hl, -⟩ := h (.neworders, key) p hp
  obtain ⟨key', hkey', rfl⟩ := Option.map_eq_some_iff.mp hls
  obtain rfl := (Prod.mk.inj (List.mem_singleton.mp hl)).2
  exact ⟨no, hno, hkey'⟩

/-- A new-order row that is linked is not marked as deleted. -/
theorem Journals.not_deleted_of_index {u : TPCCUndo F} {t : Tables F} (h : Journals t₀ u t) {key : ℤ}
    {p : Ptr} (hp : t.store.index .neworders key = some p) : p ∉ u.deleted .newOrder := by
  intro hd
  obtain ⟨ls, hls, hl, -⟩ := h.linked (.neworders, key) p hp
  exact h.undoes.not_deleted hls (h.undoes.deleted_linked hd).1 hl hp hd

/-- **Reading a new-order row** that is linked. -/
theorem Sim.read_newOrder {key : ℤ} {p : Ptr} :
    Sim (Paired t₀ [] fun u t => t.store.index .neworders key = some p ∧ X u t)
      (Op.deref .newOrder (some p)).tx (Op.deref .newOrder (some p)).tx fun no no' c c' =>
        no = no' ∧ Paired t₀ [] (fun u t => Known .newOrder (some p) no t ∧
          t.store.index .neworders key = some p ∧ X u t) c c' := by
  rintro c c' ⟨u, hc, hc', hj, hw, hp, hX⟩
  obtain ⟨no, hno, -⟩ := newOrder_of_index hj.linked hp
  have hnd : p ∉ u.deleted .newOrder := hj.not_deleted_of_index hp
  have hno' : c'.tables.store.cell .newOrder p = some no := by
    rw [hw.cell, if_neg hnd, hno]
  rw [Op.tx_apply, Op.tx_apply, Op.deref_apply, Op.deref_apply, hno, hno']
  exact Option.Rel.some ⟨rfl, u, hc, hc', hj, hw, ⟨p, rfl, hno⟩, hp, hX⟩

/-- **Unlinking a new-order row and handing it over.** -/
theorem Sim.take {α : Type} {R : α → α → Call F → Call F → Prop} {key : ℤ} {p : Ptr} {f g : Tx F α}
    (hXY : ∀ u u' t t', u'.inserted = u.inserted →
      t'.store = t.store.setIndex [(.neworders, key)] none → X u t → Y u' t')
    (h : Sim (Paired t₀ [] Y) f g R) :
    Sim (Paired t₀ [] fun u t =>
        t.store.index .neworders key = some p ∧ p ∉ u.inserted .newOrder ∧ X u t)
      ((Op.unlinkNewOrder key).tx >>= fun _ => Tx.deleted p >>= fun _ => f)
      ((Op.unlinkNewOrder key).tx >>= fun _ => Tx.deleted p >>= fun _ => g) R := by
  rintro c c' ⟨u, hc, hc', hj, hw, hp, hnew, hX⟩
  obtain ⟨t₁, hrun, hstore, hrest⟩ := Op.unlinkNewOrder_apply c.tables key
  obtain ⟨t₁', hrun', hstore', hrest'⟩ := Op.unlinkNewOrder_apply c'.tables key
  obtain ⟨no, hno, hkey⟩ := newOrder_of_index hj.linked hp
  have hnd : p ∉ u.deleted .newOrder := hj.not_deleted_of_index hp
  have hlive : (t₁'.store.cell .newOrder p).isSome := by
    rw [hstore', Store.setIndex_cell, hw.cell, if_neg hnd, hno]
    rfl
  obtain ⟨t₂', hdel, hstore₂, hrest₂⟩ := Op.delete_of_live t₁' hlive
  simp only [bind_apply, Op.tx_apply, hrun, hrun', Option.map_some, Option.bind_some, Tx.deleted, hc,
    hc', if_neg hnd, hdel]
  refine h _ _ ⟨u.delete .newOrder p, rfl, rfl, ?_, ?_, hXY u _ _ _ rfl hstore hX⟩
  · have hlinks : c.tables.store.Links (schema F) .newOrder p [(.neworders, key)] :=
      ⟨no, hno, by simp [schema, rowLinks, hkey]⟩
    exact
      { undoes := by
          rw [hstore]
          exact hj.undoes.delete hlinks (fun l hl => by rw [List.mem_singleton.mp hl, hp]) hnew hnd
        linked := by
          rw [hstore]
          exact hj.linked.unlink hlinks fun l hl => by rw [List.mem_singleton.mp hl, hp]
        items := by rw [hrest]; exact hj.items
        customersByName := by rw [hrest]; exact hj.customersByName
        history := by rw [hrest]; exact hj.history
        modified := hj.modified
        inserted := hj.inserted
        deleted := fun k hk => by
          rw [Log.addAll_nil, Log.delete_deleted_of_ne _ _ hk]
          exact hj.deleted k hk
        next_le := by rw [hrest]; exact hj.next_le
        next_le_inserted := hj.next_le_inserted }
  · refine ⟨?_, fun k q => ?_, by rw [hrest₂, hrest', hrest]; exact hw.rest⟩
    · rw [hstore₂, hstore', hstore, Store.setCell_index]
      simp only [Store.setIndex, hw.index]
    · rw [hstore₂, hstore', hstore]
      by_cases heq : k = .newOrder ∧ q = p
      · obtain ⟨rfl, rfl⟩ := heq
        rw [Store.setCell_cell_same, if_pos (Log.mem_delete.mpr (Or.inr ⟨rfl, rfl⟩))]
      · rw [Store.setCell_cell_of_ne _ _ heq]
        have hsame : q ∈ (u.delete .newOrder p).deleted k ↔ q ∈ u.deleted k := by
          rw [Log.mem_delete, or_iff_left heq]
        simp only [Store.setIndex_cell, hsame]
        exact hw.cell k q

/-- What `delivery` takes in a later district is not changed by what it has taken. -/
theorem oldestNewOrder_of_unlinked {t t' : Tables F} {key w d d' : ℤ} {no : NewOrder}
    (hkey : makeNewOrderKey .checked no.noWId no.noDId no.noOId = some key) (hw : no.noWId = w)
    (hd : no.noDId = d) (hlt : d < d')
    (hstore : t'.store = t.store.setIndex [(.neworders, key)] none) :
    t'.oldestNewOrder w d' = t.oldestNewOrder w d' := by
  have hmap : t'.neworders = t.neworders.erase key := by
    refine OrderedMap.ext_find fun k => ?_
    have hidx := congrFun (congrFun (congrArg Store.index hstore) .neworders) k
    rw [OrderedMap.find_erase]
    refine hidx.trans ?_
    rw [Store.setIndex]
    simp [Tables.index_neworders]
  have hcell : t'.cell .newOrder = t.cell .newOrder :=
    congrFun (congrArg Store.cell hstore) .newOrder
  rw [Tables.oldestNewOrder, Tables.oldestNewOrder, hmap, hcell]
  cases hbound : makeNewOrderKey .checked w d' 1 with
  | none => rfl
  | some bound =>
    have hbelow : key < bound := by
      obtain ⟨⟨-, -, ho⟩, rfl⟩ := makeNewOrderKey_eq_some.mp hkey
      obtain ⟨-, rfl⟩ := makeNewOrderKey_eq_some.mp hbound
      simp only [validOrder, Order.maxOrderId] at ho
      subst hw hd
      omega
    simp only [Option.bind_eq_bind, Option.bind_some, OrderedMap.lowerBound_erase_of_lt hbelow]

end TpccBench
