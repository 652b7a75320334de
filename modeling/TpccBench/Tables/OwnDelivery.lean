import TpccBench.Tables.Agreement

/-!
# A delivery of the run itself

When all transactions of a run extend one buffer, a delivery may take a new-order row that the run has
inserted. The row is then collected twice, as inserted and as deleted, and no key leads to it any more
(`TpccBench.Stray`). It stays so, whatever the run goes on with (`TpccBench.Txn.keeps_stray`), and
`applyUndo` fails, because `eraseNewOrder` does not find the row (`TpccBench.Op.applyUndo_of_stray`). So a
buffer that is extended can be applied if and only if no delivery has taken a row of the run
(`TpccBench.undo_extended_iff`).
-/

namespace TpccBench

open Prog Tx

variable {F : Type} {X Y : TPCCUndo F → Tables F → Prop} {p : Ptr} {w d : ℤ}

/-! ### What is kept -/

/-- What is said of the buffer and the tables stays true when rows are collected, as long as the queue of new orders
is left alone. -/
def Steady (X : TPCCUndo F → Tables F → Prop) : Prop :=
  ∀ ⦃u u' t t'⦄, u.inserted .newOrder ⊆ u'.inserted .newOrder → t'.store.index .neworders = t.store.index .neworders →
    t'.store.cell .newOrder = t.store.cell .newOrder → X u t → X u' t'

/-- A call with a buffer, of which something is said. -/
def Having (X : TPCCUndo F → Tables F → Prop) (c : Call F) : Prop := ∃ u, c.undo = some (some u) ∧ X u c.tables

/-- **A part of a transaction keeps it.** -/
def Holding {α : Type} (X : TPCCUndo F → Tables F → Prop) (x : Tx F α) : Prop := Triple (Having X) x fun _ => Having X

/-- The operation leaves the queue of new orders alone. -/
def LeavesQueue {α : Type} (x : Op F α) : Prop := ∀ t a t', x t = some (a, t') →
  t'.store.index .neworders = t.store.index .neworders ∧ t'.store.cell .newOrder = t.store.cell .newOrder

namespace LeavesQueue

variable {α : Type}

theorem query {x : Op F α} (hx : Query x) : LeavesQueue x := by
  intro t a t' h
  have hrel := hx t t (Alike.refl t)
  rw [h] at hrel
  cases hrel with
  | some hr =>
    obtain ⟨-, rfl, -⟩ := hr
    exact ⟨rfl, rfl⟩

/-- A row of another kind. -/
theorem setCell {t : Tables F} {k : Kind} (hk : k ≠ .newOrder) (q : Ptr) (r : Option (Row F k)) :
    (t.store.setCell k q r).cell .newOrder = t.store.cell .newOrder :=
  funext fun _ => Store.setCell_cell_of_ne _ r fun heq => hk heq.1.symm

theorem assign {k : Kind} (hk : k ≠ .newOrder) (q : Option Ptr) (r : Row F k) : LeavesQueue (Op.assign k q r) := by
  intro t a t' h
  cases q with
  | none => exact absurd h (by simp [Op.assign])
  | some q =>
    by_cases hlive : (t.store.cell k q).isSome
    · obtain ⟨t₁, hrun, hstore, -⟩ := Op.assign_of_live t hlive r
      obtain ⟨-, rfl⟩ := Prod.mk.inj (Option.some.inj (hrun.symm.trans h))
      rw [hstore]
      exact ⟨rfl, setCell hk q _⟩
    · rw [Op.assign_of_dead t (Option.not_isSome_iff_eq_none.mp hlive)] at h
      exact absurd h (by simp)

theorem inserts {x : Op F Ptr} {k : Kind} {r : Row F k} (hk : k ≠ .newOrder) (hx : Op.Inserts x k r) :
    LeavesQueue x := by
  intro t q t' h
  obtain ⟨ls, hls, -, -, hstore, -⟩ := hx.of_eq_some h
  rw [hstore]
  refine ⟨funext fun key => ?_, setCell hk q _⟩
  refine (Store.setIndex_index _ ls _ (.neworders, key)).trans (if_neg fun hl => ?_)
  exact hk (kind_of_rowLinks hls hl).symm

theorem insertHistory (h : History F) : LeavesQueue (Op.insertHistory h) := by
  intro t q t' hrun
  obtain ⟨t₁, hrun₁, hstore, -⟩ := Op.insertHistory_apply (t := t) h
  obtain ⟨-, rfl⟩ := Prod.mk.inj (Option.some.inj (hrun₁.symm.trans hrun))
  rw [hstore]
  exact ⟨rfl, setCell (by decide) _ _⟩

end LeavesQueue

namespace Holding

variable {α β : Type} {x : Tx F α}

protected theorem pure (a : α) : Holding X (pure a : Tx F α) := Triple.pure fun _ h => h

protected theorem bind {f : α → Tx F β} (hx : Holding X x) (hf : ∀ a, Holding X (f a)) : Holding X (x >>= f) :=
  Triple.bind hx hf

theorem lift (o : Option α) : Holding X (liftM o : Tx F α) := (Triple.lift o).post fun _ _ h => h.2

theorem assert (q : Prop) [Decidable q] : Holding (F := F) X (Prog.assert q) := Triple.assert.post fun _ _ h => h.2

protected theorem failure : Holding X (failure : Tx F α) := Triple.failure

theorem mapM {ι : Type} {f : ι → Tx F α} (h : ∀ i, Holding X (f i)) (l : List ι) : Holding X (l.mapM f) :=
  (Triple.mapM (I := fun _ => Having X) (J := fun _ _ => True) (fun i _ => (h i).post fun _ _ hc => ⟨trivial, hc⟩) l).post
    fun _ _ hc => hc.2

theorem foldlM {ι : Type} {f : α → ι → Tx F α} (h : ∀ a i, Holding X (f a i)) (l : List ι) (a : α) :
    Holding X (l.foldlM f a) :=
  Triple.foldlM (I := fun _ _ => Having X) (fun a i _ => h a i) l a

theorem op (hX : Steady X) {y : Op F α} (hy : LeavesQueue y) : Holding X y.tx := by
  rintro c ⟨u, hu, hc⟩ a c' hrun
  obtain ⟨⟨b, t'⟩, hy', heq⟩ := Option.map_eq_some_iff.mp hrun
  obtain ⟨rfl, rfl⟩ := Prod.mk.inj heq
  obtain ⟨hidx, hcell⟩ := hy _ _ _ hy'
  exact ⟨u, hu, hX (List.Subset.refl _) hidx hcell hc⟩

theorem look (hX : Steady X) {y : Op F α} (hy : Query y) : Holding X y.tx := op hX (.query hy)

theorem assign (hX : Steady X) {k : Kind} (hk : k ≠ .newOrder) (q : Option Ptr) (r : Row F k) :
    Holding X (Op.assign k q r).tx := op hX (.assign hk q r)

theorem allocateUndo : Holding (F := F) X Tx.allocateUndo := by
  rintro c ⟨u, hu, hc⟩ a c' hrun
  obtain ⟨-, rfl⟩ := Prod.mk.inj (Option.some.inj hrun)
  exact ⟨u, by simp [hu], hc⟩

theorem save (hX : Steady X) (k : Kind) (q : Option Ptr) : Holding X (Tx.save k q) := by
  rintro c ⟨u, hu, hc⟩ a c' hrun
  simp only [Tx.save, hu] at hrun
  obtain ⟨q, -, hrun⟩ := Option.bind_eq_some_iff.mp hrun
  obtain ⟨r, -, heq⟩ := Option.map_eq_some_iff.mp hrun
  obtain ⟨-, rfl⟩ := Prod.mk.inj heq
  have hsub : u.inserted .newOrder ⊆ (u.save k q r).inserted .newOrder := by rw [Log.save_inserted]; exact fun _ h => h
  exact ⟨_, rfl, hX hsub rfl rfl hc⟩

theorem inserted (hX : Steady X) (k : Kind) (q : Ptr) : Holding X (Tx.inserted k q) := by
  rintro c ⟨u, hu, hc⟩ a c' hrun
  simp only [Tx.inserted, hu] at hrun
  split at hrun
  · exact absurd hrun (by simp)
  · obtain ⟨-, rfl⟩ := Prod.mk.inj (Option.some.inj hrun)
    refine ⟨_, rfl, hX (fun p hp => ?_) rfl rfl hc⟩
    exact Log.mem_insert.mpr (Or.inl hp)

theorem deleted (hX : Steady X) (q : Ptr) : Holding X (Tx.deleted q) := by
  rintro c ⟨u, hu, hc⟩ a c' hrun
  simp only [Tx.deleted, hu] at hrun
  split at hrun
  · exact absurd hrun (by simp)
  · obtain ⟨-, rfl⟩ := Prod.mk.inj (Option.some.inj hrun)
    have hsub : u.inserted .newOrder ⊆ (u.delete .newOrder q).inserted .newOrder := List.Subset.refl _
    exact ⟨_, rfl, hX hsub rfl rfl hc⟩

end Holding

/-! ### A row that is collected twice -/

/-- The buffer has the row as inserted, and no key leads to it. -/
structure Stray (p : Ptr) (u : TPCCUndo F) (t : Tables F) : Prop where
  inserted : p ∈ u.inserted .newOrder
  live : (t.store.cell .newOrder p).isSome
  unlinked (key : ℤ) : t.store.index .neworders key ≠ some p

theorem Stray.congr {u u' : TPCCUndo F} {t t' : Tables F} (h : Stray p u t)
    (hsub : u.inserted .newOrder ⊆ u'.inserted .newOrder) (hcell : t'.store.cell .newOrder = t.store.cell .newOrder)
    (hidx : ∀ key, t'.store.index .neworders key = some p → t.store.index .neworders key = some p) : Stray p u' t' := by
  refine ⟨hsub h.inserted, ?_, fun key hp => h.unlinked key (hidx key hp)⟩
  rw [hcell]
  exact h.live

/-- There is such a row. -/
def Strayed (u : TPCCUndo F) (t : Tables F) : Prop := ∃ p, Stray p u t

theorem Strayed.steady : Steady (F := F) Strayed := by
  rintro u u' t t' hsub hidx hcell ⟨p, h⟩
  exact ⟨p, h.congr hsub hcell fun key hp => (congrFun hidx key).symm.trans hp⟩

/-- **A row that is inserted** is another one. -/
theorem Holding.insertNewOrder (w d o : ℤ) : Holding (F := F) Strayed (Op.insertNewOrder w d o).tx := by
  rintro c ⟨u, hu, p, hp⟩ a c' hrun
  obtain ⟨⟨q, t'⟩, hins, heq⟩ := Option.map_eq_some_iff.mp hrun
  obtain ⟨rfl, rfl⟩ := Prod.mk.inj heq
  obtain ⟨ls, -, -, hq, hstore, -⟩ := (Op.insertNewOrder_inserts w d o).of_eq_some hins
  have hne : p ≠ q := by
    rintro rfl
    have hlive := hp.live
    rw [hq, c.tables.cell_next] at hlive
    exact absurd hlive (by simp)
  refine ⟨u, hu, p, hp.inserted, ?_, fun key hkey => ?_⟩
  · rw [hstore, Store.setIndex_cell, Store.setCell_cell_of_ne _ _ fun heq => hne heq.2]
    exact hp.live
  · rw [hstore] at hkey
    have hkey := (Store.setIndex_index _ ls _ (Index.neworders, key)).symm.trans hkey
    split at hkey
    · exact hne (Option.some.inj hkey).symm
    · exact hp.unlinked key hkey

/-! ### The transactions -/

section Transactions

variable (hX : Steady X)
include hX

theorem updateStock_holding (home remote : ℤ) (item : NewOrderItem) : Holding X (updateStock home remote item) := by
  rw [updateStock]
  split
  · exact Holding.pure _
  · refine (Holding.look hX (Query.findStock _ _)).bind fun stock => ?_
    refine (Holding.save hX _ _).bind fun _ => (Holding.look hX (Query.deref (by decide) stock)).bind fun s => ?_
    exact (Holding.assign hX (by decide) _ _).bind fun _ => Holding.pure _

theorem newOrderRemote_holding (home remote : ℤ) (items : List NewOrderItem) :
    Holding X (newOrderRemote home remote items) := by
  rw [newOrderRemote]
  refine (Holding.look hX (Query.findAndValidateItems _)).bind fun tuples => ?_
  cases tuples with
  | none => exact Holding.pure _
  | some tuples =>
    refine Holding.allocateUndo.bind fun _ => ?_
    exact (Holding.mapM (fun item => updateStock_holding hX home remote item) items).bind fun _ => Holding.pure _

variable [Money F]

theorem addOrderLine_holding (w d o : ℤ) (e : (NewOrderItem × Item F × ItemInfo F) × ℕ) :
    Holding X (addOrderLine w d o e) := by
  rw [addOrderLine]
  refine (Holding.look hX (Query.findStock _ _)).bind fun stock => ?_
  refine (Holding.look hX (Query.deref (by decide) stock)).bind fun s => ?_
  refine (Holding.lift _).bind fun olDistInfo => ?_
  refine (Holding.op hX (.inserts (by decide) (Op.insertOrderLine_inserts _))).bind fun ol => ?_
  exact (Holding.inserted hX _ _).bind fun _ => Holding.pure _

theorem paymentHome_holding (w d cWId cDId customerId : ℤ) (hAmount : F) (now : List Char) :
    Holding X (paymentHome w d cWId cDId customerId hAmount now) := by
  rw [paymentHome]
  refine (Holding.look hX (Query.findWarehouse _)).bind fun wp => Holding.allocateUndo.bind fun _ => ?_
  refine (Holding.save hX _ _).bind fun _ => (Holding.look hX (Query.deref (by decide) wp)).bind fun ware => ?_
  refine (Holding.assign hX (by decide) _ _).bind fun _ => ?_
  refine (Holding.look hX (Query.findDistrict _ _)).bind fun dp => ?_
  refine (Holding.save hX _ _).bind fun _ => (Holding.look hX (Query.deref (by decide) dp)).bind fun dist => ?_
  refine (Holding.assign hX (by decide) _ _).bind fun _ => ?_
  refine (Holding.lift _).bind fun hDate => (Holding.lift _).bind fun hData => ?_
  refine (Holding.op hX (.insertHistory _)).bind fun history => ?_
  exact (Holding.inserted hX _ _).bind fun _ => Holding.pure _

theorem internalPaymentRemote_holding (w d : ℤ) (c : Option Ptr) (hAmount : F) (output : PaymentOutput F) :
    Holding X (internalPaymentRemote w d c hAmount output) := by
  rw [internalPaymentRemote]
  refine Holding.allocateUndo.bind fun _ => (Holding.save hX _ _).bind fun _ => ?_
  refine (Holding.look hX (Query.deref (by decide) c)).bind fun cust => (Holding.lift _).bind fun cData => ?_
  exact (Holding.assign hX (by decide) _ _).bind fun _ => Holding.pure _

theorem deliverLine_holding (w d o : ℤ) (now : List Char) (total : F) (i : ℕ) :
    Holding X (deliverLine w d o now total i) := by
  rw [deliverLine]
  refine (Holding.look hX (Query.findOrderLine _ _ _ _)).bind fun line => (Holding.save hX _ _).bind fun _ => ?_
  refine (Holding.look hX (Query.deref (by decide) line)).bind fun l => (Holding.assert _).bind fun _ => ?_
  refine (Holding.lift _).bind fun olDeliveryD => (Holding.assert _).bind fun _ => ?_
  exact (Holding.assign hX (by decide) _ _).bind fun _ => Holding.pure _

end Transactions

section Strayed

variable [Money F]

theorem newOrderHomeUncombined_holding (w d customerId : ℤ) (items : List NewOrderItem) (now : List Char)
    (output : NewOrderOutput F) : Holding Strayed (newOrderHomeUncombined w d customerId items now output) := by
  have hX := Strayed.steady (F := F)
  rw [newOrderHomeUncombined]
  refine (Holding.look hX (Query.findDistrict _ _)).bind fun dp => ?_
  refine (Holding.look hX (Query.deref (by decide) dp)).bind fun dist => ?_
  refine (Holding.look hX (Query.findOrder _ _ _)).bind fun existing => (Holding.assert _).bind fun _ => ?_
  refine (Holding.look hX (Query.findCustomer _ _ _)).bind fun c => ?_
  refine (Holding.look hX (Query.deref (by decide) c)).bind fun cust => ?_
  refine (Holding.look hX (Query.findAndValidateItems _)).bind fun tuples => ?_
  cases tuples with
  | none => exact Holding.pure _
  | some tuples =>
    refine Holding.allocateUndo.bind fun _ => (Holding.save hX _ _).bind fun _ => ?_
    refine (Holding.assign hX (by decide) _ _).bind fun _ => ?_
    refine (Holding.look hX (Query.findWarehouse _)).bind fun wp => ?_
    refine (Holding.look hX (Query.deref (by decide) wp)).bind fun ware => ?_
    refine (Holding.lift _).bind fun oEntryD => (Holding.assert _).bind fun _ => ?_
    refine (Holding.op hX (.inserts (by decide) (Op.insertOrder_inserts _))).bind fun o => ?_
    refine (Holding.insertNewOrder _ _ _).bind fun no => ?_
    refine (Holding.inserted hX _ _).bind fun _ => (Holding.inserted hX _ _).bind fun _ => ?_
    refine (Holding.mapM (addOrderLine_holding hX w d dist.dNextOId) _).bind fun infos => ?_
    refine (newOrderRemote_holding hX w w items).bind fun quantities => ?_
    cases quantities with
    | none => exact Holding.failure
    | some quantities => exact Holding.pure _

theorem newOrderHome_holding (w d customerId : ℤ) (items : List NewOrderItem) (now : List Char)
    (output : NewOrderOutput F) : Holding Strayed (newOrderHome w d customerId items now output) := by
  rw [newOrderHome]
  refine (newOrderHomeUncombined_holding w d customerId items now output).bind fun r => ?_
  obtain ⟨quantities, out⟩ := r
  cases quantities with
  | none => exact Holding.pure _
  | some quantities => exact (Holding.lift _).bind fun combined => Holding.pure _

theorem newOrder_holding (h : HashOrder) (w d customerId : ℤ) (items : List NewOrderItem) (now : List Char)
    (output : NewOrderOutput F) : Holding Strayed (newOrder h w d customerId items now output) := by
  rw [newOrder]
  refine (newOrderHome_holding w d customerId items now output).bind fun r => ?_
  obtain ⟨result, out⟩ := r
  cases result with
  | false => exact Holding.pure _
  | true =>
    refine Holding.bind (Holding.foldlM (fun out remote => ?_) _ _) fun out => Holding.pure _
    refine (newOrderRemote_holding Strayed.steady w remote items).bind fun quantities => ?_
    cases quantities with
    | none => exact Holding.failure
    | some quantities => exact Holding.lift _

theorem payment_holding (w d cWId cDId customerId : ℤ) (hAmount : F) (now : List Char) :
    Holding Strayed (payment w d cWId cDId customerId hAmount now) := by
  have hX := Strayed.steady (F := F)
  rw [payment]
  refine (Holding.look hX (Query.findCustomer _ _ _)).bind fun c => ?_
  refine (paymentHome_holding hX w d cWId cDId customerId hAmount now).bind fun out => ?_
  exact internalPaymentRemote_holding hX w d c hAmount out

theorem paymentByName_holding (w d cWId cDId : ℤ) (cLast : List Char) (hAmount : F) (now : List Char) :
    Holding Strayed (paymentByName w d cWId cDId cLast hAmount now) := by
  have hX := Strayed.steady (F := F)
  rw [paymentByName]
  refine (Holding.look hX (Query.findCustomerByName _ _ _)).bind fun c => ?_
  refine (Holding.look hX (Query.deref (by decide) c)).bind fun cust => ?_
  refine (paymentHome_holding hX w d cWId cDId cust.cId hAmount now).bind fun out => ?_
  exact internalPaymentRemote_holding hX w d c hAmount out

theorem paymentRemote_holding (w d cWId cDId cId : ℤ) (hAmount : F) (output : PaymentOutput F) :
    Holding Strayed (paymentRemote w d cWId cDId cId hAmount output) := by
  have hX := Strayed.steady (F := F)
  rw [paymentRemote]
  refine (Holding.look hX (Query.findCustomer _ _ _)).bind fun c => ?_
  exact (internalPaymentRemote_holding hX w d c hAmount output).bind fun out => Holding.pure _

theorem paymentRemoteByName_holding (w d cWId cDId : ℤ) (cLast : List Char) (hAmount : F)
    (output : PaymentOutput F) : Holding Strayed (paymentRemoteByName w d cWId cDId cLast hAmount output) := by
  have hX := Strayed.steady (F := F)
  rw [paymentRemoteByName]
  refine (Holding.look hX (Query.findCustomerByName _ _ _)).bind fun c => ?_
  exact (internalPaymentRemote_holding hX w d c hAmount output).bind fun out => Holding.pure _

end Strayed

/-! ### Delivery -/

/-- The queue of new orders leads to live rows, by their own keys. -/
def Queued (t : Tables F) : Prop := ∀ ⦃key p⦄, t.store.index .neworders key = some p →
  ∃ no : NewOrder, t.store.cell .newOrder p = some no ∧ makeNewOrderKey .checked no.noWId no.noDId no.noOId = some key

/-- In one of these districts a delivery is to take a row that the buffer has as inserted. -/
structure Due (w : ℤ) (ds : List ℤ) (u : TPCCUndo F) (t : Tables F) : Prop where
  queued : Queued t
  own : ∃ d ∈ ds, ∃ p, t.oldestNewOrder w d = some p ∧ p ∈ u.inserted .newOrder

/-- A delivery with these districts still to come has taken such a row, or is to take one. -/
def Owning (w : ℤ) (ds : List ℤ) (u : TPCCUndo F) (t : Tables F) : Prop := Strayed u t ∨ Due w ds u t

theorem oldestNewOrder_congr {t t' : Tables F} (hidx : t'.store.index .neworders = t.store.index .neworders)
    (hcell : t'.store.cell .newOrder = t.store.cell .newOrder) (w d : ℤ) :
    t'.oldestNewOrder w d = t.oldestNewOrder w d := by
  have hcell : t'.cell .newOrder = t.cell .newOrder := hcell
  rw [Tables.oldestNewOrder, Tables.oldestNewOrder, neworders_of_index hidx, hcell]

theorem Owning.steady (w : ℤ) (ds : List ℤ) : Steady (F := F) (Owning w ds) := by
  rintro u u' t t' hsub hidx hcell (h | ⟨hq, d, hd, p, hp, hin⟩)
  · exact Or.inl (Strayed.steady hsub hidx hcell h)
  · refine Or.inr ⟨fun key q hkey => ?_, d, hd, p, ?_, hsub hin⟩
    · rw [hidx] at hkey
      rw [hcell]
      exact hq hkey
    · rw [oldestNewOrder_congr hidx hcell]
      exact hp

/-- Nothing is taken in the district. -/
theorem Owning.skip {d : ℤ} {ds : List ℤ} {u : TPCCUndo F} {t : Tables F} (h : Owning w (d :: ds) u t)
    (hnone : t.oldestNewOrder w d = none) : Owning w ds u t := by
  refine h.imp_right fun h => ⟨h.queued, ?_⟩
  obtain ⟨d', hd', p, hp, hin⟩ := h.own
  rcases List.mem_cons.mp hd' with rfl | hd'
  · exact absurd (hnone.symm.trans hp) (by simp)
  · exact ⟨d', hd', p, hp, hin⟩

/-- **The oldest row of the district is taken.** If the buffer has it as inserted, it is the stray one; if not, the
row that is one lies in a later district. -/
theorem Owning.take {d key : ℤ} {ds : List ℤ} {u : TPCCUndo F} {t t' : Tables F} {no : NewOrder}
    (h : Owning w (d :: ds) u t) (hds : ∀ d' ∈ ds, d < d') (hold : t.oldestNewOrder w d = some p)
    (hidx : t.store.index .neworders key = some p) (hno : t.store.cell .newOrder p = some no) (hd : no.noDId = d)
    (hw : no.noWId = w) (hstore : t'.store = t.store.setIndex [(.neworders, key)] none) : Owning w ds u t' := by
  have hcell : t'.store.cell .newOrder = t.store.cell .newOrder := congrFun (congrArg Store.cell hstore) .newOrder
  have hless : ∀ key' q, t'.store.index .neworders key' = some q →
      key' ≠ key ∧ t.store.index .neworders key' = some q := by
    intro key' q hq
    rw [hstore] at hq
    have hq := (Store.setIndex_index _ [(.neworders, key)] _ (Index.neworders, key')).symm.trans hq
    split at hq
    · exact absurd hq (by simp)
    · next hout => exact ⟨fun heq => hout (heq ▸ List.mem_singleton_self _), hq⟩
  rcases h with ⟨q, hq⟩ | ⟨hqueued, d', hd', q, hq, hin⟩
  · exact Or.inl ⟨q, hq.congr (List.Subset.refl _) hcell fun key' hkey' => (hless key' q hkey').2⟩
  · have hiter : makeNewOrderKey .checked no.noWId no.noDId no.noOId = some key := by
      obtain ⟨no', hno', hkey⟩ := hqueued hidx
      obtain rfl := Option.some.inj (hno.symm.trans hno')
      exact hkey
    rcases List.mem_cons.mp hd' with rfl | hd'
    · -- its only key is the one that has been cut
      obtain rfl := Option.some.inj (hold.symm.trans hq)
      refine Or.inl ⟨p, hin, by rw [hcell, hno]; rfl, fun key' hkey' => ?_⟩
      obtain ⟨hne, hkey'⟩ := hless key' p hkey'
      obtain ⟨no', hno', hown⟩ := hqueued hkey'
      obtain rfl := Option.some.inj (hno.symm.trans hno')
      exact hne (Option.some.inj (hown.symm.trans hiter))
    · refine Or.inr ⟨fun key' q' hkey' => ?_, d', hd', q, ?_, hin⟩
      · rw [hcell]
        exact hqueued (hless key' q' hkey').2
      · rw [oldestNewOrder_of_unlinked hiter hw hd (hds d' hd') hstore]
        exact hq

section Delivery

variable [Money F]

/-- **One district.** -/
theorem deliverDistrict_owning {carrierId : ℤ} {now : List Char} {d : ℤ} {ds : List ℤ} (hds : ∀ d' ∈ ds, d < d') :
    Triple (Having (Owning (F := F) w (d :: ds))) (deliverDistrict w carrierId now d) fun _ => Having (Owning w ds) := by
  have hX := Owning.steady (F := F) w ds
  rw [deliverDistrict]
  refine (Triple.lift _).bind fun key => Triple.of_fact fun hkey => ?_
  have hlook : Triple (Having (Owning (F := F) w (d :: ds))) (Op.lowerBoundNewOrder key).tx fun found c =>
      c.tables.neworders.lowerBound key = found ∧ Having (Owning w (d :: ds)) c := by
    intro c hc found c' hrun
    obtain ⟨rfl, rfl⟩ := Prod.mk.inj (Option.some.inj hrun)
    exact ⟨rfl, hc⟩
  refine hlook.bind fun found => ?_
  cases found with
  | none =>
    refine Triple.pure fun c hc => ?_
    obtain ⟨hlb, u, hu, h⟩ := hc
    exact ⟨u, hu, h.skip (by simp [Tables.oldestNewOrder, hkey, hlb])⟩
  | some found =>
    obtain ⟨iterator, p⟩ := found
    have hread : Triple (fun c : Call F => c.tables.neworders.lowerBound key = some (iterator, p) ∧
        Having (Owning w (d :: ds)) c) (Op.deref .newOrder (some p)).tx fun no c =>
          c.tables.store.cell .newOrder p = some no ∧ c.tables.neworders.lowerBound key = some (iterator, p) ∧
            Having (Owning w (d :: ds)) c := by
      intro c hc no c' hrun
      obtain ⟨⟨no', t'⟩, hderef, heq⟩ := Option.map_eq_some_iff.mp hrun
      obtain ⟨rfl, rfl⟩ := Prod.mk.inj heq
      obtain ⟨hno, rfl⟩ := deref_eq_some hderef
      exact ⟨hno, hc⟩
    refine hread.bind fun no => ?_
    by_cases hother : no.noDId ≠ d ∨ no.noWId ≠ w
    · simp only [if_pos hother]
      refine Triple.pure fun c hc => ?_
      obtain ⟨hno, hlb, u, hu, h⟩ := hc
      have hcell : c.tables.cell .newOrder p = some no := hno
      refine ⟨u, hu, h.skip ?_⟩
      have hguard : ¬(no.noDId = d ∧ no.noWId = w) := fun hand => hother.elim (fun hd => hd hand.1) fun hw => hw hand.2
      simp [Tables.oldestNewOrder, hkey, hlb, hcell, hguard]
    · simp only [if_neg hother]
      obtain ⟨hd, hw⟩ := not_or.mp hother
      have hd : no.noDId = d := not_not.mp hd
      have hw : no.noWId = w := not_not.mp hw
      refine Triple.bind (Q := fun _ => Having (Owning w ds)) ?_ fun _ => (Holding.deleted hX _).bind fun _ => ?_
      · rintro c ⟨hno, hlb, u, hu, h⟩ a c' hrun
        obtain ⟨⟨_, t'⟩, hunlink, heq⟩ := Option.map_eq_some_iff.mp hrun
        obtain ⟨-, rfl⟩ := Prod.mk.inj heq
        obtain ⟨t₁, hrun₁, hstore, -⟩ := Op.unlinkNewOrder_apply c.tables iterator
        obtain ⟨-, rfl⟩ := Prod.mk.inj (Option.some.inj (hrun₁.symm.trans hunlink))
        have hcell : c.tables.cell .newOrder p = some no := hno
        refine ⟨u, hu, h.take hds ?_ (OrderedMap.lowerBound_eq_some.mp hlb).1 hno hd hw hstore⟩
        simp [Tables.oldestNewOrder, hkey, hlb, hcell, hd, hw]
      · refine (Holding.look hX (Query.findOrder _ _ _)).bind fun o => ?_
        refine (Holding.look hX (Query.deref (by decide) o)).bind fun order => (Holding.assert _).bind fun _ => ?_
        refine (Holding.save hX _ _).bind fun _ => (Holding.assign hX (by decide) _ _).bind fun _ => ?_
        refine (Holding.foldlM (deliverLine_holding hX w d no.noOId now) _ _).bind fun total => ?_
        refine (Holding.look hX (Query.findCustomer _ _ _)).bind fun c => (Holding.save hX _ _).bind fun _ => ?_
        refine (Holding.look hX (Query.deref (by decide) c)).bind fun cust => ?_
        exact (Holding.assign hX (by decide) _ _).bind fun _ => Holding.pure _

/-- **`delivery`** takes the row that is due. -/
theorem delivery_owning (w carrierId : ℤ) (now : List Char) :
    Triple (Having (Owning (F := F) w districtIds)) (delivery w carrierId now) fun _ => Having Strayed := by
  have hloop : ∀ ds, ds.Pairwise (· < ·) → Triple (Having (Owning (F := F) w ds))
      (ds.mapM (deliverDistrict w carrierId now)) fun _ => Having (Owning w []) := by
    intro ds hds
    induction ds with
    | nil => exact Triple.pure fun _ h => h
    | cons d ds ih =>
      rw [List.mapM_cons]
      obtain ⟨hlt, hds⟩ := List.pairwise_cons.mp hds
      refine (deliverDistrict_owning hlt).bind fun info => (ih hds).bind fun infos => ?_
      exact Triple.pure fun _ h => h
  rw [delivery]
  refine Triple.bind Holding.allocateUndo fun _ => (hloop districtIds (by decide)).bind fun orders => ?_
  refine Triple.pure fun c hc => ?_
  obtain ⟨u, hu, h | h⟩ := hc
  · exact ⟨u, hu, h⟩
  · obtain ⟨d, hd, -⟩ := h.own
    exact absurd hd List.not_mem_nil

/-- **A stray row stays one**, whatever the run goes on with. -/
theorem Txn.keeps_stray (x : Txn F) : Holding Strayed x.exec := by
  cases x with
  | newOrder h w d c items now output =>
    exact (newOrder_holding h w d c items now output).bind fun _ => Holding.pure _
  | newOrderHome w d c items now output =>
    exact (newOrderHome_holding w d c items now output).bind fun _ => Holding.pure _
  | newOrderRemote home remote items =>
    exact (newOrderRemote_holding Strayed.steady home remote items).bind fun _ => Holding.pure _
  | payment w d cW cD c hAmount now =>
    exact (payment_holding w d cW cD c hAmount now).bind fun _ => Holding.pure _
  | paymentByName w d cW cD cLast hAmount now =>
    exact (paymentByName_holding w d cW cD cLast hAmount now).bind fun _ => Holding.pure _
  | paymentHome w d cW cD c hAmount now =>
    exact (paymentHome_holding Strayed.steady w d cW cD c hAmount now).bind fun _ => Holding.pure _
  | paymentRemote w d cW cD c hAmount output =>
    exact (paymentRemote_holding w d cW cD c hAmount output).bind fun _ => Holding.pure _
  | paymentRemoteByName w d cW cD cLast hAmount output =>
    exact (paymentRemoteByName_holding w d cW cD cLast hAmount output).bind fun _ => Holding.pure _
  | delivery w carrierId now =>
    refine Triple.bind (((delivery_owning w carrierId now).pre ?_)) fun _ => Holding.pure _
    rintro c ⟨u, hu, h⟩
    exact ⟨u, hu, Or.inl h⟩

end Delivery

/-! ### The buffer is applied -/

/-- No key leads to the row. -/
def Unlinked (p : Ptr) (t : Tables F) : Prop := ∀ key, t.store.index .neworders key ≠ some p

namespace Op

theorem restoreFromMap_unlinked {h : HashOrder} {k : Kind} (hk : k ≠ .newOrder) {map : List (Ptr × Row F k)}
    {t t' : Tables F} (ht : Unlinked p t) (hrun : restoreFromMap h k map t = some ((), t')) : Unlinked p t' := by
  refine Triple.forM (I := Unlinked p) (fun e _ t₁ h₁ _ t₂ hassign key => ?_) t ht () t' hrun
  rw [(LeavesQueue.assign hk (some e.1) e.2 _ _ _ hassign).1]
  exact h₁ key

/-- An erasure links nothing. -/
theorem Erases.unlinked {x : Op F Unit} {k : Kind} {q : Ptr} (hx : Erases x k q) (honly : ErasesOnly x k q)
    {t t' : Tables F} (ht : Unlinked p t) (hrun : x t = some ((), t')) : Unlinked p t' := by
  obtain ⟨s, hs⟩ := Option.isSome_iff_exists.mp (honly t t' hrun)
  obtain ⟨t₁, hrun₁, hstore, -⟩ := hx t s hs
  obtain rfl := (Prod.mk.inj (Option.some.inj (hrun₁.symm.trans hrun))).2
  obtain ⟨r, ls, -, -, -, rfl⟩ := links_of_erase hs
  intro key hkey
  rw [hstore] at hkey
  have hkey := (Store.setIndex_index _ ls _ (Index.neworders, key)).symm.trans hkey
  split at hkey
  · exact absurd hkey (by simp)
  · exact ht key hkey

theorem eraseTuple_unlinked {h : HashOrder} {k : Kind} {l : List Ptr} {erase : Ptr → Op F Unit}
    (hx : ∀ q, Erases (erase q) k q) (honly : ∀ q, ErasesOnly (erase q) k q) {t t' : Tables F}
    (ht : Unlinked p t) (hrun : eraseTuple h l erase t = some ((), t')) : Unlinked p t' :=
  Triple.forM (fun q _ _ h₁ _ _ hrun => (hx q).unlinked (honly q) h₁ hrun) t ht () t' hrun

/-- **`eraseNewOrder` asserts that the row is linked.** -/
theorem eraseNewOrder_of_unlinked {t : Tables F} (ht : Unlinked p t) : eraseNewOrder p t = none := by
  by_contra hne
  obtain ⟨⟨_, t'⟩, hrun⟩ := Option.ne_none_iff_exists'.mp hne
  obtain ⟨s, hs⟩ := Option.isSome_iff_exists.mp (eraseNewOrder_only p t t' hrun)
  obtain ⟨no, ls, -, hls, hidx, -⟩ := links_of_erase hs
  obtain ⟨key, -, rfl⟩ := Option.map_eq_some_iff.mp hls
  exact ht key (hidx _ (List.mem_singleton_self _))

/-- **A buffer that has a stray row cannot be applied.** -/
theorem applyUndo_of_stray (h : HashOrder) {u : TPCCUndo F} {t : Tables F} (hs : Strayed u t) :
    applyUndo h u t = none := by
  obtain ⟨p, hp⟩ := hs
  have h₀ : Unlinked p t := hp.unlinked
  by_contra hne
  obtain ⟨⟨_, t'⟩, hrun⟩ := Option.ne_none_iff_exists'.mp hne
  obtain ⟨_, t₁, h₁, hrun⟩ := bind_eq_some hrun
  have e₁ := restoreFromMap_unlinked (by decide) h₀ h₁
  obtain ⟨_, t₂, h₂, hrun⟩ := bind_eq_some hrun
  have e₂ := restoreFromMap_unlinked (by decide) e₁ h₂
  obtain ⟨_, t₃, h₃, hrun⟩ := bind_eq_some hrun
  have e₃ := restoreFromMap_unlinked (by decide) e₂ h₃
  obtain ⟨_, t₄, h₄, hrun⟩ := bind_eq_some hrun
  have e₄ := restoreFromMap_unlinked (by decide) e₃ h₄
  obtain ⟨_, t₅, h₅, hrun⟩ := bind_eq_some hrun
  have e₅ := restoreFromMap_unlinked (by decide) e₄ h₅
  obtain ⟨_, t₆, h₆, hrun⟩ := bind_eq_some hrun
  have e₆ := restoreFromMap_unlinked (by decide) e₅ h₆
  obtain ⟨_, t₇, h₇, hrun⟩ := bind_eq_some hrun
  have e₇ := eraseTuple_unlinked eraseOrder_erases eraseOrder_only e₆ h₇
  obtain ⟨_, t₈, h₈, hrun⟩ := bind_eq_some hrun
  have e₈ := eraseTuple_unlinked eraseOrderLine_erases eraseOrderLine_only e₇ h₈
  obtain ⟨_, t₉, h₉, -⟩ := bind_eq_some hrun
  have hmem : p ∈ h.iter _ (u.inserted .newOrder) := (h.perm _ _).mem_iff.mpr hp.inserted
  have hfail : eraseTuple h (u.inserted .newOrder) eraseNewOrder t₈ = none :=
    forM_eq_none hmem (fun q _ _ h' _ _ hrun => (eraseNewOrder_erases q).unlinked (eraseNewOrder_only q) h' hrun)
      (fun _ h' => eraseNewOrder_of_unlinked h') e₈
  exact absurd (hfail.symm.trans h₉) (by simp)

end Op

/-! ### Runs -/

variable [Money F]

/-- **After such a delivery** the buffer has a stray row, in every run that goes on. -/
theorem Txn.extend_strayed {t : Tables F} (ht : t.WellFormed) {xs : List (Txn F)} (hxs : ¬TakesNoneOfItsOwn t xs)
    {c : Call F} (hrun : Run.result Txn.extend ⟨t, some none⟩ xs = some c) : Having Strayed c := by
  induction xs using List.reverseRecOn generalizing c with
  | nil => exact absurd Run.each_nil hxs
  | append_singleton xs x ih =>
    rw [Run.result_snoc] at hrun
    obtain ⟨c₁, hrun₁, hrun⟩ := Option.bind_eq_some_iff.mp hrun
    obtain ⟨r, hexec, rfl⟩ := Option.map_eq_some_iff.mp hrun
    by_cases hbefore : TakesNoneOfItsOwn t xs
    · -- the last transaction is the delivery
      have hx : ¬x.Undoable (c₁.buffer.getD Log.empty) c₁.tables := by
        intro hx
        refine hxs (Run.each_snoc.mpr ⟨hbefore, fun c hc => ?_⟩)
        obtain rfl := Option.some.inj (hrun₁.symm.trans hc)
        exact hx
      obtain ⟨c', o, ho, -, hj, -⟩ := Txn.extend_open ht hbefore hrun₁
      have hb : c₁.buffer = o := by rw [Call.buffer, ho]; rfl
      rw [hb] at hx
      cases x with
      | delivery w carrierId now =>
        have hown : ∃ d ∈ districtIds, ∃ p, c₁.tables.oldestNewOrder w d = some p ∧
            p ∈ (o.getD Log.empty).inserted .newOrder := by
          simpa [Txn.Undoable, Untaken] using hx
        cases o with
        | none =>
          obtain ⟨d, -, p, -, hin⟩ := hown
          exact absurd hin List.not_mem_nil
        | some u =>
          have hdue : Due w districtIds u c₁.tables := ⟨fun _ _ hp => newOrder_of_index hj.linked hp, hown⟩
          obtain ⟨orders, c₂, hdel, hpure⟩ := bind_eq_some hexec
          obtain ⟨-, rfl⟩ := Prod.mk.inj (Option.some.inj hpure)
          exact delivery_owning w carrierId now c₁ ⟨u, ho, Or.inr hdue⟩ orders _ hdel
      | _ => exact absurd trivial hx
    · exact x.keeps_stray c₁ (ih hbefore hrun₁) r.1 r.2 hexec

/-- **An extended buffer can be applied if and only if no delivery has taken a new-order row inserted in the run**, and
then it undoes everything. If one has, `applyUndo` fails, whatever came after it. -/
theorem undo_extended_iff (h : HashOrder) {t : Tables F} (ht : t.WellFormed) {xs : List (Txn F)} {c : Call F}
    (hrun : Run.result Txn.extend ⟨t, some none⟩ xs = some c) :
    ((∃ t', c.applyUndo h = some t' ∧ t'.contents = t.contents ∧ t'.WellFormed) ↔ TakesNoneOfItsOwn t xs) ∧
      (¬TakesNoneOfItsOwn t xs → c.applyUndo h = none) := by
  have hfails : ¬TakesNoneOfItsOwn t xs → c.applyUndo h = none := by
    intro hxs
    obtain ⟨u, hu, hs⟩ := Txn.extend_strayed ht hxs hrun
    have hb : c.buffer = some u := by rw [Call.buffer, hu]; rfl
    rw [Call.applyUndo, hb]
    exact congrArg (Option.map fun r => r.2) (Op.applyUndo_of_stray h hs)
  refine ⟨⟨fun hundo => ?_, fun hxs => undo_extended h ht hxs hrun⟩, hfails⟩
  by_contra hxs
  obtain ⟨t', hundo, -⟩ := hundo
  exact absurd ((hfails hxs).symm.trans hundo) (by simp)

/-- Of an order and a delivery: if the delivery comes first, it finds nothing to deliver, and the two are undone. If the
order comes first, the delivery takes what it has inserted. -/
theorem undo_extended_either :
    (∃ c t', Run.result Txn.extend ⟨smallTables, some none⟩ [smallDelivery, smallOrder] = some c ∧
      c.applyUndo .asInserted = some t' ∧ t'.contents = smallTables.contents) ∧
    ¬TakesNoneOfItsOwn smallTables [smallOrder, smallDelivery] := by
  constructor
  · have hrun : (Run.result Txn.extend ⟨smallTables, some none⟩ [smallDelivery, smallOrder]).isSome := by
      decide +kernel
    obtain ⟨c, hrun⟩ := Option.isSome_iff_exists.mp hrun
    have hsteps : TakesNoneOfItsOwn smallTables [smallDelivery, smallOrder] := by
      refine (Run.each_snoc (l := [smallDelivery])).mpr ⟨(Run.each_snoc (l := [])).mpr ⟨Run.each_nil, ?_⟩, ?_⟩
      · intro c hc
        obtain rfl := Option.some.inj hc
        exact fun _ _ _ _ => List.not_mem_nil
      · exact fun _ _ => trivial
    obtain ⟨t', hundo, hc, -⟩ := (undo_extended_iff .asInserted smallTables_wellFormed hrun).1.mpr hsteps
    exact ⟨c, t', hrun, hundo, hc⟩
  · intro hsteps
    have hfail : (Run.result Txn.extend ⟨smallTables, some none⟩ [smallOrder, smallDelivery]).map
        (fun c => (c.applyUndo .asInserted).isNone) = some true := by decide +kernel
    obtain ⟨c, hrun, hnone⟩ := Option.map_eq_some_iff.mp hfail
    obtain ⟨t', hundo, -⟩ := (undo_extended_iff .asInserted smallTables_wellFormed hrun).1.mpr hsteps
    exact absurd ((Option.isNone_iff_eq_none.mp hnone).symm.trans hundo) (by simp)

/-- **The order is placed and delivered, and the buffer cannot be applied**: it has the
new-order row as inserted, and `eraseNewOrder` does not find it linked. -/
theorem own_delivery_not_undone :
    smallTables.WellFormed ∧
      ∃ c, Run.result Txn.extend ⟨smallTables, some none⟩ [smallOrder, smallDelivery] = some c ∧
        c.applyUndo .asInserted = none := by
  refine ⟨smallTables_wellFormed, ?_⟩
  have hfail : (Run.result Txn.extend ⟨smallTables, some none⟩ [smallOrder, smallDelivery]).map
      (fun c => (c.applyUndo .asInserted).isNone) = some true := by decide +kernel
  obtain ⟨c, hrun, hnone⟩ := Option.map_eq_some_iff.mp hfail
  exact ⟨c, hrun, Option.isNone_iff_eq_none.mp hnone⟩

end TpccBench
