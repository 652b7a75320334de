import TpccBench.Db.Transactions
import TpccBench.Tables.Agreement

/-!
# The tables refine the database

Side by side once more: a transaction with a null `undo` on the tables, and the transaction
on the database they show. Both fail, or both end with the same result, and the tables
show the database afterwards (`TpccBench.Refines`).

An address that was looked up stays the address of its row as long as no index changes.
So the relation carries what is known of the indexes and of the database
(`TpccBench.Shows`), and loses it at the insertions.
-/

namespace TpccBench

open Prog

variable {F : Type}

/-- What the indexes are. -/
abbrev Entries : Type := Index → ℤ → Option Ptr

/-- The address of the row with some ids. -/
def Entries.lookup (e : Entries) (k : Kind) (id : RowId k) : Option Ptr :=
  (primary k id).bind fun l => e l.1 l.2

/-- **The tables of the call show the database**, and this is known of the two. -/
def Shows (X : Entries → Db F → Prop) (c : Call F) (db : Db F) : Prop :=
  c.undo = none ∧ c.tables.Sound ∧ c.tables.db = db ∧ X c.tables.store.index db

/-- Nothing is known. -/
def Anything (_ : Entries) (_ : Db F) : Prop := True

/-- The address is the one of the row. -/
def At (k : Kind) (id : RowId k) (p : Option Ptr) (e : Entries) : Prop := p = e.lookup k id

/-- **The transaction on the tables does to the database they show what the other does.** -/
def Refines {α : Type} (x : Tx F α) (y : Dx F α) : Prop :=
  Sim (Shows Anything) x y fun a b c db => a = b ∧ Shows Anything c db

namespace Shows

variable {α β : Type} {X Y : Entries → Db F → Prop} {c : Call F} {db : Db F} {k : Kind} {id : RowId k}

theorem mono (h : Shows X c db) (hXY : ∀ e db, X e db → Y e db) : Shows Y c db :=
  ⟨h.1, h.2.1, h.2.2.1, hXY _ _ h.2.2.2⟩

theorem anything (h : Shows X c db) : Shows Anything c db := h.mono fun _ _ _ => trivial

/-! ### Statements that only concern the undo buffer -/

theorem skip_save {p : Option Ptr} {f : Tx F α} {y : Dx F β} {Q : α → β → Call F → Db F → Prop}
    (h : Sim (Shows X) f y Q) : Sim (Shows X) (Tx.save k p >>= fun _ => f) y Q := by
  intro c db hc
  have hsave : Tx.save k p c = some ((), c) := by rw [Tx.save, hc.1]
  rw [bind_apply, hsave, Option.bind_some]
  exact h c db hc

theorem skip_inserted {p : Ptr} {f : Tx F α} {y : Dx F β} {Q : α → β → Call F → Db F → Prop}
    (h : Sim (Shows X) f y Q) : Sim (Shows X) (Tx.inserted k p >>= fun _ => f) y Q := by
  intro c db hc
  have hins : Tx.inserted k p c = some ((), c) := by rw [Tx.inserted, hc.1]
  rw [bind_apply, hins, Option.bind_some]
  exact h c db hc

theorem skip_allocateUndo {f : Tx F α} {y : Dx F β} {Q : α → β → Call F → Db F → Prop}
    (h : Sim (Shows X) f y Q) : Sim (Shows X) (Tx.allocateUndo >>= fun _ => f) y Q := by
  intro c db hc
  have halloc : Tx.allocateUndo c = some ((), c) := by
    obtain ⟨t, u⟩ := c
    obtain rfl : u = none := hc.1
    rfl
  rw [bind_apply, halloc, Option.bind_some]
  exact h c db hc

/-! ### Looking -/

/-- An operation that finds the address of a row. -/
def FindsRow (x : Op F (Option Ptr)) (k : Kind) (id : RowId k) : Prop :=
  ∀ t : Tables F, x t = if (primary k id).isSome then some (t.lookup k id, t) else none

/-- What is looked up is found. -/
theorem FindsRow.of_lookup {x : Op F (Option Ptr)} (hx : FindsRow x k id) {t : Tables F} {p : Ptr}
    (h : t.lookup k id = some p) : x t = some (some p, t) := by
  obtain ⟨l, hl, -⟩ := Option.bind_eq_some_iff.mp h
  rw [hx t, if_pos (by rw [hl]; rfl), h]

theorem finds_keyed {n : TreeName} {key : Option ℤ}
    (h : primary k id = key.map fun key => (.tree n, key)) :
    FindsRow (F := F) (liftM key >>= fun key => Op.findIn n key) k id := by
  intro t
  rw [bind_apply, lift_apply]
  cases key with
  | none => simp [h]
  | some key =>
    rw [if_pos (by simp [h]), Tables.lookup_of_primary h]
    rfl

theorem findWarehouse_finds (w : ℤ) : FindsRow (F := F) (Op.findWarehouse w) .warehouse w :=
  fun _ => rfl

theorem findStock_finds (w i : ℤ) : FindsRow (F := F) (Op.findStock w i) .stock (w, i) :=
  finds_keyed rfl

theorem findDistrict_finds (w d : ℤ) : FindsRow (F := F) (Op.findDistrict w d) .district (w, d) :=
  finds_keyed rfl

theorem findCustomer_finds (w d c : ℤ) :
    FindsRow (F := F) (Op.findCustomer w d c) .customer (w, d, c) := finds_keyed rfl

theorem findOrder_finds (w d o : ℤ) : FindsRow (F := F) (Op.findOrder w d o) .order (w, d, o) :=
  finds_keyed rfl

theorem findOrderLine_finds (w d o n : ℤ) :
    FindsRow (F := F) (Op.findOrderLine w d o n) .orderLine (w, d, o, n) := finds_keyed rfl

/-- **Looking for a row.** -/
theorem find {x : Op F (Option Ptr)} (hx : FindsRow x k id) :
    Sim (Shows X) x.tx (Db.find k id) fun p _ c db => Shows (fun e db => At k id p e ∧ X e db) c db := by
  rintro c db ⟨hundo, hs, hdb, hX⟩
  rw [Op.tx_apply, hx c.tables, Db.find, assert]
  split
  · exact Option.Rel.some ⟨hundo, hs, hdb, rfl, hX⟩
  · exact Option.Rel.none

/-- **Reading a row.** -/
theorem get {p : Option Ptr} :
    Sim (Shows fun e db => At k id p e ∧ X e db) (Op.deref k p).tx (Db.get k id) fun r r' c db =>
      r = r' ∧ Shows (fun e db => (db.row k id = some r ∧ At k id p e) ∧ X e db) c db := by
  rintro c db ⟨hundo, hs, hdb, hp, hX⟩
  have hp : p = c.tables.lookup k id := hp
  have hrow : db.row k id = p.bind (c.tables.store.cell k) := by rw [← hdb, hp]; rfl
  rw [Op.tx_apply, Db.get, hrow]
  cases p with
  | none => exact Option.Rel.none
  | some q =>
    rw [Op.deref_apply, Option.bind_some] at *
    cases hr : c.tables.store.cell k q with
    | none => exact Option.Rel.none
    | some r => exact Option.Rel.some ⟨rfl, hundo, hs, hdb, ⟨by rw [hrow, hr], hp⟩, hX⟩

/-- **Writing a row** that was read. -/
theorem set (hk : k ≠ .history) {p : Option Ptr} {r₀ r : Row F k}
    (hlinks : rowLinks k r = rowLinks k r₀) (hid : rowId k r = rowId k r₀)
    (hXY : ∀ e db, X e db → Y e (db.setRow k id (some r))) :
    Sim (Shows fun e db => (db.row k id = some r₀ ∧ At k id p e) ∧ X e db)
      (Op.assign k p r).tx (Db.set k r) fun a b c db => a = b ∧ Shows Y c db := by
  rintro c db ⟨hundo, hs, hdb, ⟨hrow, hp⟩, hX⟩
  have hp : p = c.tables.lookup k id := hp
  obtain ⟨q, hq, hcell⟩ := Tables.lookup_of_row (hdb ▸ hrow)
  obtain rfl : p = some q := hp.trans hq
  obtain ⟨t, hrun, hstore, hrest⟩ := Op.assign_of_live c.tables (by rw [hcell]; rfl) r
  have hidr : rowId k r = id := by
    rw [hid]
    exact Tables.rowId_of_row hs.linked (hdb ▸ hrow)
  rw [Op.tx_apply, hrun, Db.set, hidr]
  refine Option.Rel.some ⟨rfl, hundo, hs.write hcell hlinks hstore hrest, ?_, ?_⟩
  · rw [← hdb]
    exact Tables.db_write hs.linked hq hstore (congrArg Rest.items hrest)
      (congrArg Rest.history hrest) hk
  · have hidx : t.store.index = c.tables.store.index := by rw [hstore]; rfl
    exact hidx ▸ hXY _ _ hX

/-- **Nothing is there.** -/
theorem vacant {p : Option Ptr} {f : Tx F α} {g : Dx F β} {R : α → β → Call F → Db F → Prop}
    (h : Sim (Shows X) f g R) :
    Sim (Shows fun e db => At k id p e ∧ X e db) (Prog.assert (p = none) >>= fun _ => f)
      (Db.peek k id >>= fun existing => Prog.assert (existing.isNone = true) >>= fun _ => g) R := by
  rintro c db ⟨hundo, hs, hdb, hp, hX⟩
  have hp : p = c.tables.lookup k id := hp
  have hiff : p = none ↔ (db.row k id).isNone = true := by
    rw [hp, Tables.lookup_eq_none_iff hs.linked, hdb, Option.isNone_iff_eq_none]
  have hpeek : Db.peek k id db = some (db.row k id, db) := rfl
  rw [bind_apply (Db.peek k id), hpeek, Option.bind_some]
  exact Sim.bind_eq (P := Shows X) (Sim.assert fun _ _ _ => hiff) (fun _ => Sim.of_fact fun _ => h) c
    db ⟨hundo, hs, hdb, hX⟩

/-- An operation that only reads, and what it reads of the database. -/
def Reads (x : Op F α) (y : Dx F α) : Prop :=
  ∀ t : Tables F, ∃ o : Option α, x t = o.map (fun a => (a, t)) ∧ y t.db = o.map fun a => (a, t.db)

theorem Reads.pure (a : α) : Reads (F := F) (pure a) (pure a) := fun _ => ⟨some a, rfl, rfl⟩

theorem Reads.bind {x : Op F α} {y : Dx F α} {f : α → Op F β} {g : α → Dx F β} (hx : Reads x y)
    (hf : ∀ a, Reads (f a) (g a)) : Reads (x >>= f) (y >>= g) := by
  intro t
  obtain ⟨o, hxt, hyt⟩ := hx t
  cases o with
  | none => exact ⟨none, by rw [bind_apply, hxt]; rfl, by rw [bind_apply, hyt]; rfl⟩
  | some a =>
    obtain ⟨o, hft, hgt⟩ := hf a t
    exact ⟨o, by rw [bind_apply, hxt]; exact hft, by rw [bind_apply, hyt]; exact hgt⟩

/-- **Reading.** -/
theorem reads {x : Op F α} {y : Dx F α} (hxy : Reads x y) :
    Sim (Shows X) x.tx y fun a b c db => a = b ∧ Shows X c db := by
  rintro c db ⟨hundo, hs, rfl, hX⟩
  obtain ⟨o, hxt, hyt⟩ := hxy c.tables
  rw [Op.tx_apply, hxt, hyt]
  cases o with
  | none => exact Option.Rel.none
  | some a => exact Option.Rel.some ⟨rfl, hundo, hs, rfl, hX⟩

theorem findItem_reads (i : ℤ) : Reads (F := F) (Op.findItem i) (Db.findItem i) := by
  intro t
  refine ⟨if 1 ≤ i then some t.items[(i - 1).toNat]? else none, ?_, ?_⟩ <;>
    rw [apply_ite (Option.map _)] <;> rfl

theorem findAndValidateItems_reads (items : List NewOrderItem) :
    Reads (F := F) (Tx.findAndValidateItems items) (Db.findAndValidateItems items) := by
  induction items with
  | nil => exact Reads.pure _
  | cons item items ih =>
    refine (findItem_reads item.iId).bind fun tuple => ?_
    cases tuple with
    | none => exact Reads.pure _
    | some tuple => exact ih.bind fun _ => Reads.pure _

/-! ### Inserting -/

/-- **Inserting a row.** -/
theorem insert (hk : k ≠ .history) {x : Op F Ptr} {r : Row F k} (hx : Op.Inserts x k r) :
    Sim (Shows X) x.tx (Db.insert k r) fun _ _ c db => Shows Anything c db := by
  rintro c db ⟨hundo, hs, rfl, -⟩
  rw [Op.tx_apply]
  cases hrun : x c.tables with
  | some e =>
    obtain ⟨p, t⟩ := e
    obtain ⟨hs', hlinks, hnone, hdb⟩ := hs.inserts hx hk hrun
    rw [Db.insert, if_pos ⟨hlinks, by rw [hnone]; rfl⟩]
    exact Option.Rel.some ⟨hundo, hs', hdb, trivial⟩
  | none =>
    rw [Db.insert, if_neg]
    · exact Option.Rel.none
    · rintro ⟨hlinks, hnone⟩
      obtain ⟨ls, hls⟩ := Option.isSome_iff_exists.mp hlinks
      rcases hx c.tables with ⟨ls', t, -, -, hrun', -⟩ | ⟨-, hocc⟩
      · exact absurd (hrun.symm.trans hrun') (by simp)
      · obtain ⟨l, hl, hne⟩ := hocc ls hls
        exact hne (Tables.vacant_of_row_eq_none hk hs.linked hls (Option.isNone_iff_eq_none.mp hnone)
          l hl)

/-- **Appending a history row.** -/
theorem insertHistory (h : History F)
    (hXY : ∀ e db, X e db → Y e { db with history := db.history ++ [h] }) :
    Sim (Shows X) (Op.insertHistory h).tx (Db.insertHistory h) fun _ _ c db => Shows Y c db := by
  rintro c db ⟨hundo, hs, rfl, hX⟩
  obtain ⟨t, hrun, -⟩ := Op.insertHistory_apply c.tables h
  obtain ⟨hs', hidx, hdb⟩ := hs.insertHistory hrun
  rw [Op.tx_apply, hrun, Db.insertHistory]
  exact Option.Rel.some ⟨hundo, hs', hdb, hidx ▸ hXY _ _ hX⟩

end Shows

/-! ### New order -/

section NewOrder

variable {X : Entries → Db F → Prop}

theorem updateStock_refines (homeWarehouse remoteWarehouse : ℤ) (item : NewOrderItem) :
    Refines (F := F) (Tx.updateStock homeWarehouse remoteWarehouse item)
      (Db.updateStock homeWarehouse remoteWarehouse item) := by
  rw [Refines, Tx.updateStock, Db.updateStock]
  refine Sim.ite Iff.rfl (fun _ => Sim.pure fun c db h => ⟨rfl, h⟩) fun _ => ?_
  refine (Shows.find (Shows.findStock_finds _ _)).bind fun stock _ => ?_
  refine Shows.skip_save (Shows.get.bind_eq fun s => ?_)
  refine (Shows.set (by simp) ?_ ?_ ?_).bind_eq fun _ => Sim.pure fun c db h => ⟨rfl, h⟩
  · rfl
  · rfl
  · exact fun _ _ h => h

theorem newOrderRemote_refines (homeWarehouse remoteWarehouse : ℤ) (items : List NewOrderItem) :
    Refines (F := F) (Tx.newOrderRemote homeWarehouse remoteWarehouse items)
      (Db.newOrderRemote homeWarehouse remoteWarehouse items) := by
  rw [Refines, Tx.newOrderRemote, Db.newOrderRemote]
  refine (Shows.reads (Shows.findAndValidateItems_reads items)).bind_eq fun tuples => ?_
  cases tuples with
  | none => exact Sim.pure fun _ _ h => ⟨rfl, h⟩
  | some tuples =>
    refine Shows.skip_allocateUndo ?_
    refine (Sim.mapM (I := fun _ => Shows Anything)
      (fun item _ => updateStock_refines homeWarehouse remoteWarehouse item) _).bind_eq fun _ => ?_
    exact Sim.pure fun _ _ h => ⟨rfl, h⟩

variable [Money F]

theorem addOrderLine_refines (w d o : ℤ) (e : (NewOrderItem × Item F × ItemInfo F) × ℕ) :
    Refines (Tx.addOrderLine w d o e) (Db.addOrderLine w d o e) := by
  rw [Refines, Tx.addOrderLine, Db.addOrderLine]
  refine (Shows.find (Shows.findStock_finds _ _)).bind fun stock _ => ?_
  refine Shows.get.bind_eq fun s => ?_
  refine (Sim.lift _).bind_eq fun olDistInfo => Sim.of_fact fun _ => ?_
  refine (Shows.insert (by simp) (Op.insertOrderLine_inserts _)).bind fun ol _ => ?_
  exact Shows.skip_inserted (Sim.pure fun _ _ h => ⟨rfl, h⟩)

theorem newOrderHomeUncombined_refines (w d customerId : ℤ) (items : List NewOrderItem)
    (now : List Char) (output : NewOrderOutput F) :
    Refines (Tx.newOrderHomeUncombined w d customerId items now output)
      (Db.newOrderHomeUncombined w d customerId items now output) := by
  rw [Refines, Tx.newOrderHomeUncombined, Db.newOrderHomeUncombined]
  refine (Shows.find (Shows.findDistrict_finds _ _)).bind fun dp _ => ?_
  refine Shows.get.bind_eq fun dist => ?_
  refine (Shows.find (Shows.findOrder_finds _ _ _)).bind fun existing _ => Shows.vacant ?_
  refine (Shows.find (Shows.findCustomer_finds _ _ _)).bind fun cp _ => ?_
  refine Shows.get.bind_eq fun cust => ?_
  refine (Shows.reads (Shows.findAndValidateItems_reads items)).bind_eq fun tuples => ?_
  cases tuples with
  | none => exact Sim.pure fun _ _ h => ⟨rfl, h.anything⟩
  | some tuples =>
    refine Shows.skip_allocateUndo (Shows.skip_save ?_)
    -- of what was read, the district is written back
    refine Sim.pre (P := Shows fun e db => (db.row .district (w, d) = some dist ∧
      At .district (w, d) dp e) ∧ Anything e db) ?_ fun _ _ h => h.mono fun _ _ hX => hX.2
    refine (Shows.set (X := Anything) (Y := Anything) (k := .district) (by simp) ?_ ?_ fun _ _ h => h).bind_eq
      fun _ => ?_
    · rfl
    · rfl
    refine (Shows.find (Shows.findWarehouse_finds _)).bind fun wp _ => ?_
    refine Shows.get.bind_eq fun ware => ?_
    refine (Sim.lift _).bind_eq fun oEntryD => Sim.of_fact fun _ => ?_
    refine (Sim.assert fun _ _ _ => Iff.rfl).bind_eq fun _ => Sim.of_fact fun _ => ?_
    refine (Shows.insert (by simp) (Op.insertOrder_inserts _)).bind fun o _ => ?_
    refine (Shows.insert (by simp) (Op.insertNewOrder_inserts _ _ _)).bind fun no _ => ?_
    refine Shows.skip_inserted (Shows.skip_inserted ?_)
    refine (Sim.mapM (I := fun _ => Shows Anything)
      (fun e _ => addOrderLine_refines w d dist.dNextOId e) _).bind_eq fun infos => ?_
    refine Sim.bind_eq (newOrderRemote_refines w w items) fun quantities => ?_
    cases quantities with
    | none => exact Sim.failure
    | some quantities => exact Sim.pure fun _ _ h => ⟨rfl, h⟩

theorem newOrderHome_refines (w d customerId : ℤ) (items : List NewOrderItem) (now : List Char)
    (output : NewOrderOutput F) :
    Refines (Tx.newOrderHome w d customerId items now output)
      (Db.newOrderHome w d customerId items now output) := by
  rw [Refines, Tx.newOrderHome, Db.newOrderHome]
  refine Sim.bind_eq (newOrderHomeUncombined_refines w d customerId items now output) fun r => ?_
  obtain ⟨quantities, out⟩ := r
  cases quantities with
  | none => exact Sim.pure fun _ _ h => ⟨rfl, h⟩
  | some quantities =>
    refine (Sim.lift _).bind_eq fun combined => Sim.of_fact fun _ => ?_
    exact Sim.pure fun _ _ h => ⟨rfl, h⟩

omit [Money F] in
theorem newOrderRemotes_refines (w : ℤ) (items : List NewOrderItem) (remotes : List ℤ)
    (output : NewOrderOutput F) :
    Refines (remotes.foldlM (fun output remote => do
        match ← Tx.newOrderRemote w remote items with
        | none => failure
        | some quantities => newOrderCombine quantities output) output)
      (Db.newOrderRemotes w items remotes output) := by
  rw [Refines, Db.newOrderRemotes]
  refine Sim.foldlM (I := fun _ => Shows Anything) (fun out remote _ => ?_) remotes output
  refine Sim.bind_eq (newOrderRemote_refines w remote items) fun quantities => ?_
  cases quantities with
  | none => exact Sim.failure
  | some quantities => exact (Sim.lift _).post fun _ _ _ _ h => ⟨h.1, h.2.2⟩

/-- **`newOrder`.** -/
theorem newOrder_refines (h : HashOrder) (w d customerId : ℤ) (items : List NewOrderItem)
    (now : List Char) (output : NewOrderOutput F) :
    Refines (Tx.newOrder h w d customerId items now output)
      (Db.newOrder h w d customerId items now output) := by
  rw [Refines, Tx.newOrder, Db.newOrder]
  refine Sim.bind_eq (newOrderHome_refines w d customerId items now output) fun r => ?_
  obtain ⟨result, out⟩ := r
  refine Sim.ite Iff.rfl (fun _ => Sim.pure fun _ _ h => ⟨rfl, h⟩) fun _ => ?_
  exact Sim.bind_eq (newOrderRemotes_refines w items _ out) fun out =>
    Sim.pure fun _ _ h => ⟨rfl, h⟩

end NewOrder

/-! ### Payment -/

section Payment

variable [Money F]

/-- What is known of the indexes stays known: no entry is written. -/
theorem paymentHome_refines {E : Entries → Prop} (w d cWId cDId customerId : ℤ) (hAmount : F)
    (now : List Char) :
    Sim (Shows fun e _ => E e) (Tx.paymentHome w d cWId cDId customerId hAmount now)
      (Db.paymentHome w d cWId cDId customerId hAmount now) fun a b c db =>
        a = b ∧ Shows (fun e _ => E e) c db := by
  rw [Tx.paymentHome, Db.paymentHome]
  refine (Shows.find (Shows.findWarehouse_finds _)).bind fun wp _ => ?_
  refine Shows.skip_allocateUndo (Shows.skip_save (Shows.get.bind_eq fun ware => ?_))
  refine (Shows.set (X := fun e _ => E e) (Y := fun e _ => E e) (k := .warehouse) (by simp) ?_ ?_ fun _ _ h => h).bind_eq
    fun _ => ?_
  · rfl
  · rfl
  refine (Shows.find (Shows.findDistrict_finds _ _)).bind fun dp _ => ?_
  refine Shows.skip_save (Shows.get.bind_eq fun dist => ?_)
  refine (Shows.set (X := fun e _ => E e) (Y := fun e _ => E e) (k := .district) (by simp) ?_ ?_ fun _ _ h => h).bind_eq
    fun _ => ?_
  · rfl
  · rfl
  refine (Sim.lift _).bind_eq fun hDate => Sim.of_fact fun _ => ?_
  refine (Sim.lift _).bind_eq fun hData => Sim.of_fact fun _ => ?_
  refine (Shows.insertHistory (X := fun e _ => E e) (Y := fun e _ => E e) _ fun _ _ h => h).bind fun history _ => ?_
  exact Shows.skip_inserted (Sim.pure fun _ _ h => ⟨rfl, h⟩)

theorem internalPaymentRemote_refines (w d : ℤ) (id : ℤ × ℤ × ℤ) (p : Option Ptr) (hAmount : F)
    (output : PaymentOutput F) :
    Sim (Shows fun e _ => At .customer id p e) (Tx.internalPaymentRemote w d p hAmount output)
      (Db.internalPaymentRemote w d id hAmount output) fun a b c db =>
        a = b ∧ Shows Anything c db := by
  rw [Tx.internalPaymentRemote, Db.internalPaymentRemote]
  refine Shows.skip_allocateUndo (Shows.skip_save ?_)
  refine Sim.pre (P := Shows fun e db => At .customer id p e ∧ Anything e db) ?_
    fun _ _ h => h.mono fun _ _ hX => ⟨hX, trivial⟩
  refine Shows.get.bind_eq fun cust => ?_
  refine (Sim.lift _).bind_eq fun cData => Sim.of_fact fun _ => ?_
  refine (Shows.set (X := Anything) (Y := Anything) (k := .customer) (by simp) ?_ ?_ fun _ _ h => h).bind_eq
    fun _ => ?_
  · rfl
  · rfl
  exact Sim.pure fun _ _ h => ⟨rfl, h⟩

/-- **`payment`**, by customer id. -/
theorem payment_refines (w d cWId cDId customerId : ℤ) (hAmount : F) (now : List Char) :
    Refines (Tx.payment w d cWId cDId customerId hAmount now)
      (Db.payment w d cWId cDId customerId hAmount now) := by
  rw [Refines, Tx.payment, Db.payment]
  refine (Shows.find (Shows.findCustomer_finds _ _ _)).bind fun p _ => ?_
  refine Sim.pre (P := Shows fun e _ => At .customer (cWId, cDId, customerId) p e) ?_
    fun _ _ h => h.mono fun _ _ hX => hX.1
  refine (paymentHome_refines w d cWId cDId customerId hAmount now).bind_eq fun output => ?_
  exact internalPaymentRemote_refines w d _ p hAmount output

theorem paymentRemote_refines (w d cWId cDId customerId : ℤ) (hAmount : F)
    (output : PaymentOutput F) :
    Refines (Tx.paymentRemote w d cWId cDId customerId hAmount output)
      (Db.paymentRemote w d cWId cDId customerId hAmount output) := by
  rw [Refines, Tx.paymentRemote, Db.paymentRemote]
  refine (Shows.find (Shows.findCustomer_finds _ _ _)).bind fun p _ => ?_
  refine Sim.pre (P := Shows fun e _ => At .customer (cWId, cDId, customerId) p e) ?_
    fun _ _ h => h.mono fun _ _ hX => hX.1
  refine (internalPaymentRemote_refines w d _ p hAmount output).bind_eq fun output => ?_
  exact Sim.pure fun _ _ h => ⟨rfl, h⟩

end Payment

/-! ### Delivery -/

/-- The new-order row with some ids is at its key. -/
theorem lookup_newOrder {t : Tables F} {w d o key : ℤ} (hkey : makeNewOrderKey .checked w d o = some key) :
    t.lookup .newOrder (w, d, o) = t.neworders.find key :=
  Tables.lookup_of_primary (l := (.neworders, key)) (by simp [primary, hkey])

/-- A new-order row that is there is at the key of its ids. -/
theorem key_of_newOrder {t : Tables F} {w d o : ℤ} (h : (t.db.row .newOrder (w, d, o)).isSome) :
    ∃ key p, makeNewOrderKey .checked w d o = some key ∧ t.neworders.find key = some p := by
  obtain ⟨no, hno⟩ := Option.isSome_iff_exists.mp h
  obtain ⟨p, hp, -⟩ := Tables.lookup_of_row hno
  obtain ⟨l, hl, hidx⟩ := Option.bind_eq_some_iff.mp hp
  obtain ⟨key, hkey, rfl⟩ := Option.map_eq_some_iff.mp hl
  exact ⟨key, p, hkey, hidx⟩

/-- Nothing at or above the first key of the district: it has no new-order row. -/
theorem oldest_of_lowerBound_none {t : Tables F} {w d key : ℤ}
    (hkey : makeNewOrderKey .checked w d 1 = some key) (h : t.neworders.lowerBound key = none) :
    t.db.oldest w d = none := by
  refine Db.oldest_eq_none.mpr fun o ho => ?_
  obtain ⟨key', p, hkey', hfind⟩ := key_of_newOrder ho.1
  have hlt := OrderedMap.lowerBound_eq_none.mp h key' p hfind
  obtain ⟨-, rfl⟩ := makeNewOrderKey_eq_some.mp hkey
  obtain ⟨⟨-, -, hvalid⟩, rfl⟩ := makeNewOrderKey_eq_some.mp hkey'
  have hpos := hvalid.1
  omega

/-- **The first new-order row at or above the first key of a district** is the oldest of the
district, or of another district, and then the district has none. -/
theorem oldest_of_lowerBound {t : Tables F} (h : t.Sound) {w d key iterator : ℤ} {p : Ptr}
    (hkey : makeNewOrderKey .checked w d 1 = some key)
    (hlb : t.neworders.lowerBound key = some (iterator, p)) :
    ∃ no : NewOrder, t.store.cell .newOrder p = some no ∧
      makeNewOrderKey .checked no.noWId no.noDId no.noOId = some iterator ∧
      t.db.oldest w d = if no.noDId ≠ d ∨ no.noWId ≠ w then none else some no.noOId := by
  obtain ⟨hfind, hle, hleast⟩ := OrderedMap.lowerBound_eq_some.mp hlb
  obtain ⟨no, hno, hiter⟩ := newOrder_of_index h.linked hfind
  refine ⟨no, hno, hiter, ?_⟩
  obtain ⟨⟨-, -, hvalid⟩, hit⟩ := makeNewOrderKey_eq_some.mp hiter
  obtain ⟨-, hk⟩ := makeNewOrderKey_eq_some.mp hkey
  have hbelow : ∀ o, (t.db.row .newOrder (w, d, o)).isSome →
      validOrder o ∧ iterator ≤ (w * 100 + d) * 2 ^ 32 + o := by
    intro o ho
    obtain ⟨key', q, hkey', hfind'⟩ := key_of_newOrder ho
    obtain ⟨⟨-, -, hvalid'⟩, rfl⟩ := makeNewOrderKey_eq_some.mp hkey'
    have hpos := hvalid'.1
    exact ⟨hvalid', hleast _ q hfind' (by omega)⟩
  simp only [validOrder, Order.maxOrderId] at hvalid hbelow
  split
  · next hother =>
    -- a row of the district would be between the two keys
    refine Db.oldest_eq_none.mpr fun o ho => ?_
    obtain ⟨hvalid', hle'⟩ := hbelow o ho.1
    obtain ⟨⟨-, hd, -⟩, -⟩ := makeNewOrderKey_eq_some.mp hkey
    obtain ⟨⟨-, hd', -⟩, -⟩ := makeNewOrderKey_eq_some.mp hiter
    simp only [validDistrict, District.numPerWarehouse] at hd hd'
    omega
  · next hsame =>
    obtain ⟨rfl, rfl⟩ : no.noDId = d ∧ no.noWId = w := by
      simpa only [not_or, not_not] using hsame
    refine Db.oldest_eq_some.mpr ⟨?_, fun o ho => ?_⟩
    · rw [Tables.row_of_lookup_eq_some ((lookup_newOrder hiter).trans hfind), hno]
      rfl
    · obtain ⟨-, hle'⟩ := hbelow o ho
      omega

/-- **Taking the oldest new-order row** of a district. -/
theorem take_sound {t t₁ t₂ : Tables F} (h : t.Sound) {iterator : ℤ} {p : Ptr} {no : NewOrder}
    (hfind : t.neworders.find iterator = some p) (hno : t.store.cell .newOrder p = some no)
    (hiter : makeNewOrderKey .checked no.noWId no.noDId no.noOId = some iterator)
    (hstore₁ : t₁.store = t.store.setIndex [(.neworders, iterator)] none) (hrest₁ : t₁.rest = t.rest)
    (hstore₂ : t₂.store = t₁.store.setCell .newOrder p none) (hrest₂ : t₂.rest = t₁.rest) :
    t₂.Sound ∧ t₂.db = t.db.setRow .newOrder (no.noWId, no.noDId, no.noOId) none := by
  have hlinks : rowLinks (F := F) .newOrder no = some [(.neworders, iterator)] := by
    simp [rowLinks, hiter]
  have hidx : ∀ l ∈ [(Index.neworders, iterator)], t.store.index l.1 l.2 = some p := by
    intro l hl
    rw [List.mem_singleton.mp hl]
    exact hfind
  have hrest : t₂.rest = t.rest := hrest₂.trans hrest₁
  have hname : t₂.customersByName = t.customersByName := congrArg Rest.customersByName hrest
  have hhist : t₂.history = t.history := congrArg Rest.history hrest
  have hcell : ∀ k' p', ¬(k' = .newOrder ∧ p' = p) → t₂.store.cell k' p' = t.store.cell k' p' :=
    fun k' p' hne => by
      rw [hstore₂, Store.setCell_cell_of_ne _ _ hne, hstore₁]
      rfl
  have hindex : t₂.store.index = (t.store.setIndex [(.neworders, iterator)] none).index := by
    rw [hstore₂, Store.setCell_index, hstore₁]
  refine ⟨⟨⟨?_, ?_, ?_⟩, ?_⟩, ?_⟩
  · have herase : t.store.erase (schema F) (.newOrder, p) = some t₂.store := by
      have hno : t.store.Links (schema F) .newOrder p [(.neworders, iterator)] := ⟨no, hno, hlinks⟩
      rw [Store.erase_of_links hno hidx, hstore₂, hstore₁]
    exact (evolves_of_erase herase rfl (congrArg Rest.next hrest)).linked h.linked
  · rw [hname]
    exact fun q hq => by
      rw [hcell _ _ (by simp)]
      exact h.customersByName q hq
  · rw [hhist]
    exact fun q hq => by
      rw [hcell _ _ (by simp)]
      exact h.history q hq
  · rw [hname]
    intro q hq
    obtain ⟨key, hkey⟩ := h.named q hq
    refine ⟨key, ?_⟩
    rw [hindex]
    exact (Store.setIndex_index _ _ _ (Index.tree .customers, key)).trans ((if_neg (by simp)).trans hkey)
  · exact Tables.db_unlink (k := .newOrder) (by simp) h.linked hlinks hidx hindex hcell
      (congrArg Rest.items hrest) hhist

/-- **Taking the oldest new-order row**: the statements of `delivery` up to there. -/
theorem take_refines {α : Type} {iterator : ℤ} {p : Ptr} {no : NewOrder} {f : Tx F α} {g : Dx F α}
    {Q : α → α → Call F → Db F → Prop} (h : Sim (Shows Anything) f g Q) :
    Sim (fun c db => c.tables.neworders.find iterator = some p ∧
        c.tables.store.cell .newOrder p = some no ∧
          makeNewOrderKey .checked no.noWId no.noDId no.noOId = some iterator ∧ Shows Anything c db)
      ((Op.unlinkNewOrder iterator).tx >>= fun _ => Tx.deleted p >>= fun _ => f)
      (Db.remove .newOrder (no.noWId, no.noDId, no.noOId) >>= fun _ => g) Q := by
  rintro c db ⟨hfind, hno, hiter, hundo, hs, rfl, -⟩
  obtain ⟨t₁, hrun₁, hstore₁, hrest₁⟩ := Op.unlinkNewOrder_apply c.tables iterator
  have hlive : (t₁.store.cell .newOrder p).isSome := by
    rw [hstore₁, Store.setIndex_cell, hno]
    rfl
  obtain ⟨t₂, hrun₂, hstore₂, hrest₂⟩ := Op.delete_of_live t₁ hlive
  obtain ⟨hs₂, hdb₂⟩ := take_sound hs hfind hno hiter hstore₁ hrest₁ hstore₂ hrest₂
  simp only [bind_apply, Op.tx_apply, hrun₁, Option.map_some, Option.bind_some, Tx.deleted, hundo, hrun₂,
    Db.remove]
  exact h _ _ ⟨rfl, hs₂, hdb₂, trivial⟩

section Delivery

variable [Money F]

theorem deliverLine_refines (w d o : ℤ) (now : List Char) (total : F) (i : ℕ) :
    Refines (Tx.deliverLine w d o now total i) (Db.deliverLine w d o now total i) := by
  rw [Refines, Tx.deliverLine, Db.deliverLine]
  refine (Shows.find (Shows.findOrderLine_finds _ _ _ _)).bind fun line _ => ?_
  refine Shows.skip_save (Shows.get.bind_eq fun l => ?_)
  refine (Sim.assert fun _ _ _ => Iff.rfl).bind_eq fun _ => Sim.of_fact fun _ => ?_
  refine (Sim.lift _).bind_eq fun olDeliveryD => Sim.of_fact fun _ => ?_
  refine (Sim.assert fun _ _ _ => Iff.rfl).bind_eq fun _ => Sim.of_fact fun _ => ?_
  refine (Shows.set (X := Anything) (Y := Anything) (k := .orderLine) (by simp) ?_ ?_
    fun _ _ h => h).bind_eq fun _ => ?_
  · rfl
  · rfl
  exact Sim.pure fun _ _ h => ⟨rfl, h⟩

theorem deliverDistrict_refines (w carrierId : ℤ) (now : List Char) (d : ℤ) :
    Refines (F := F) (Tx.deliverDistrict w carrierId now d) (Db.deliverDistrict w carrierId now d) := by
  rintro c db ⟨hundo, hs, rfl, -⟩
  cases hkey : makeNewOrderKey .checked w d 1 with
  | none =>
    have hfind : Db.find .newOrder (w, d, 1) c.tables.db = none := by
      simp [Db.find, assert, primary, hkey]
    rw [Tx.deliverDistrict, Db.deliverDistrict, bind_apply, bind_apply, hfind, hkey]
    exact Option.Rel.none
  | some key =>
    have hfind : Db.find .newOrder (w, d, 1) c.tables.db = some ((), c.tables.db) := by
      simp [Db.find, assert, primary, hkey]
    have hget : (StateT.get : Dx F (Db F)) c.tables.db = some (c.tables.db, c.tables.db) := rfl
    rw [Tx.deliverDistrict, Db.deliverDistrict, bind_apply, bind_apply, hfind, hkey, lift_apply,
      Option.map_some, Option.bind_some, Option.bind_some, bind_apply, bind_apply, hget, Option.bind_some]
    have hlook : (Op.lowerBoundNewOrder key).tx c = some (c.tables.neworders.lowerBound key, c) := rfl
    rw [hlook, Option.bind_some]
    cases hlb : c.tables.neworders.lowerBound key with
    | none =>
      simp only [oldest_of_lowerBound_none hkey hlb]
      exact Option.Rel.some ⟨rfl, hundo, hs, rfl, trivial⟩
    | some found =>
      obtain ⟨iterator, p⟩ := found
      obtain ⟨no, hno, hiter, hold⟩ := oldest_of_lowerBound hs hkey hlb
      have hread : (Op.deref .newOrder (some p)).tx c = some (no, c) := by
        rw [Op.tx_apply, Op.deref_apply, hno]
        rfl
      simp only [bind_apply, hread, Option.bind_some, hold]
      split
      · exact Option.Rel.some ⟨rfl, hundo, hs, rfl, trivial⟩
      · next hsame =>
        obtain ⟨rfl, rfl⟩ : no.noDId = d ∧ no.noWId = w := by
          simpa only [not_or, not_not] using hsame
        have hpre : c.tables.neworders.find iterator = some p := (OrderedMap.lowerBound_eq_some.mp hlb).1
        simp only [Db.deliverOrder]
        refine take_refines (Q := fun a b c db => a = b ∧ Shows Anything c db) ?_ c c.tables.db
          ⟨hpre, hno, hiter, hundo, hs, rfl, trivial⟩
        refine (Shows.find (Shows.findOrder_finds _ _ _)).bind fun op _ => ?_
        refine Shows.get.bind_eq fun order => ?_
        refine (Sim.assert fun _ _ _ => Iff.rfl).bind_eq fun _ => Sim.of_fact fun _ => ?_
        refine Shows.skip_save ?_
        refine (Shows.set (X := Anything) (Y := Anything) (k := .order) (by simp) ?_ ?_
          fun _ _ h => h).bind_eq fun _ => ?_
        · rfl
        · rfl
        refine Sim.bind_eq (Sim.foldlM (I := fun _ => Shows Anything)
          (fun total i _ => deliverLine_refines no.noWId no.noDId no.noOId now total i) _ 0)
            fun total => ?_
        refine (Shows.find (Shows.findCustomer_finds _ _ _)).bind fun cp _ => ?_
        refine Shows.skip_save (Shows.get.bind_eq fun cust => ?_)
        refine (Shows.set (X := Anything) (Y := Anything) (k := .customer) (by simp) ?_ ?_
          fun _ _ h => h).bind_eq fun _ => ?_
        · rfl
        · rfl
        exact Sim.pure fun _ _ h => ⟨rfl, h⟩

/-- **`delivery`.** -/
theorem delivery_refines (w carrierId : ℤ) (now : List Char) :
    Refines (F := F) (Tx.delivery w carrierId now) (Db.delivery w carrierId now) := by
  rw [Refines, Tx.delivery, Db.delivery]
  refine Shows.skip_allocateUndo ?_
  refine (Sim.mapM (I := fun _ => Shows Anything)
    (fun d _ => deliverDistrict_refines w carrierId now d) _).bind_eq fun orders => ?_
  exact Sim.pure fun _ _ h => ⟨rfl, h⟩

end Delivery

end TpccBench
