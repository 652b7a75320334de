import TpccBench.Tables.Journaled

/-!
# Every transaction keeps its buffer

The transactions, one after the other, with a buffer and with a null `undo`: both runs fail,
or both end with the same result and in calls that are still related
(`TpccBench.Paired`, `TpccBench.Open`). The proofs follow the text of the functions.

Only `delivery` asks for something: the new-order rows it takes must not have been inserted
since the buffer is in use (`TpccBench.Untaken`).
-/

namespace TpccBench

open Prog Tx

variable {F : Type} {t₀ : Tables F} {X : TPCCUndo F → Tables F → Prop}

/-- A transaction, with a buffer in which there is already something or nothing, and
with a null `undo`. -/
def Keeps {α : Type} (t₀ : Tables F) (X Y : TPCCUndo F → Tables F → Prop) (x : Tx F α) : Prop :=
  Sim (Open t₀ X) x x fun a b c c' => a = b ∧ Open t₀ Y c c'

/-- A part of a transaction after `allocateUndo`. -/
def KeepsPaired {α : Type} (t₀ : Tables F) (X Y : TPCCUndo F → Tables F → Prop) (x : Tx F α) :
    Prop :=
  Sim (Paired t₀ [] X) x x fun a b c c' => a = b ∧ Paired t₀ [] Y c c'

/-! ### New order -/

theorem updateStock_keeps (hX : Stable X) (home remote : ℤ) (item : NewOrderItem) :
    KeepsPaired t₀ X X (updateStock home remote item) := by
  rw [KeepsPaired, updateStock]
  split
  · exact Sim.pure fun _ _ h => ⟨rfl, h⟩
  · refine (Sim.look (Query.findStock _ _) fun _ _ => Paired.alike).bind_eq fun stock => ?_
    refine Sim.save_read hX (by decide) fun s => ?_
    refine (Sim.assign hX (by decide) ?_).bind_eq fun _ => Sim.pure fun _ _ h => ⟨rfl, h⟩
    rfl

theorem newOrderRemote_keeps (hX : Stable X) (home remote : ℤ) (items : List NewOrderItem) :
    Keeps t₀ X X (newOrderRemote home remote items) := by
  rw [Keeps, newOrderRemote]
  refine (Sim.look (Query.findAndValidateItems _) fun _ _ => Open.alike).bind_eq fun tuples => ?_
  cases tuples with
  | none => exact Sim.pure fun _ _ h => ⟨rfl, h⟩
  | some tuples =>
    refine Sim.allocateUndo.bind_eq fun _ => ?_
    refine Sim.bind_eq (Sim.mapM (I := fun _ => Paired t₀ [] X)
      (fun item _ => updateStock_keeps hX home remote item) items) fun quantities => ?_
    exact Sim.pure fun _ _ h => ⟨rfl, h.toOpen⟩

variable [Money F]

theorem addOrderLine_keeps (w d o : ℤ) (e : (NewOrderItem × Item F × ItemInfo F) × ℕ) :
    KeepsPaired t₀ Any Any (addOrderLine w d o e) := by
  rw [KeepsPaired, addOrderLine]
  refine (Sim.look (Query.findStock _ _) fun _ _ => Paired.alike).bind_eq fun stock => ?_
  refine (Sim.look (Query.deref (by decide) stock) fun _ _ => Paired.alike).bind_eq fun s => ?_
  refine (Sim.lift _).bind_eq fun olDistInfo => Sim.of_fact fun _ => ?_
  refine (Sim.insert (by decide) (by decide) (Op.insertOrderLine_inserts _)).bind_eq fun ol => ?_
  refine Sim.inserted.bind_eq fun _ => ?_
  exact Sim.pure fun _ _ h => ⟨rfl, h⟩

theorem newOrderHomeUncombined_keeps (w d customerId : ℤ) (items : List NewOrderItem)
    (now : List Char) (output : NewOrderOutput F) :
    Keeps t₀ Any Any (newOrderHomeUncombined w d customerId items now output) := by
  rw [Keeps, newOrderHomeUncombined]
  refine (Sim.look (Query.findDistrict _ _) fun _ _ => Open.alike).bind_eq fun dp => ?_
  -- what is read here is written back further down
  refine (Sim.read_open (by decide) dp).bind_eq fun dist => ?_
  refine (Sim.look (Query.findOrder _ _ _) fun _ _ => Open.alike).bind_eq fun existing => ?_
  refine (Sim.assert fun _ _ _ => Iff.rfl).bind_eq fun _ => Sim.of_fact fun _ => ?_
  refine (Sim.look (Query.findCustomer _ _ _) fun _ _ => Open.alike).bind_eq fun c => ?_
  refine (Sim.look (Query.deref (by decide) c) fun _ _ => Open.alike).bind_eq fun cust => ?_
  refine (Sim.look (Query.findAndValidateItems _) fun _ _ => Open.alike).bind_eq fun tuples => ?_
  cases tuples with
  | none => exact Sim.pure fun _ _ h => ⟨rfl, h.mono fun _ _ hX => hX.2⟩
  | some tuples =>
    refine Sim.allocateUndo.bind_eq fun _ => ?_
    refine (Sim.save Any.stable (by decide)).bind_eq fun _ => ?_
    refine (Sim.assign Any.stable (by decide) ?_).bind_eq fun _ => ?_
    · rfl
    refine (Sim.look (Query.findWarehouse _) fun _ _ => Paired.alike).bind_eq fun wp => ?_
    refine (Sim.look (Query.deref (by decide) wp) fun _ _ => Paired.alike).bind_eq fun ware => ?_
    refine (Sim.lift _).bind_eq fun oEntryD => Sim.of_fact fun _ => ?_
    refine (Sim.assert fun _ _ _ => Iff.rfl).bind_eq fun _ => Sim.of_fact fun _ => ?_
    refine (Sim.insert (by decide) (by decide) (Op.insertOrder_inserts _)).bind_eq fun o => ?_
    refine (Sim.insert (by decide) (by decide) (Op.insertNewOrder_inserts _ _ _)).bind_eq fun no => ?_
    refine Sim.inserted.bind_eq fun _ => Sim.inserted.bind_eq fun _ => ?_
    refine Sim.bind_eq (Sim.mapM (I := fun _ => Paired t₀ [] Any)
      (fun e _ => addOrderLine_keeps w d dist.dNextOId e) _) fun infos => ?_
    refine Sim.bind_eq ((newOrderRemote_keeps Any.stable w w items).pre fun _ _ h => h.toOpen)
      fun quantities => ?_
    cases quantities with
    | none => exact Sim.failure
    | some quantities => exact Sim.pure fun _ _ h => ⟨rfl, h⟩

theorem newOrderHome_keeps (w d customerId : ℤ) (items : List NewOrderItem) (now : List Char)
    (output : NewOrderOutput F) : Keeps t₀ Any Any (newOrderHome w d customerId items now output) := by
  rw [Keeps, newOrderHome]
  refine Sim.bind_eq (newOrderHomeUncombined_keeps w d customerId items now output) fun r => ?_
  obtain ⟨quantities, out⟩ := r
  cases quantities with
  | none => exact Sim.pure fun _ _ h => ⟨rfl, h⟩
  | some quantities =>
    refine (Sim.lift _).bind_eq fun combined => Sim.of_fact fun _ => ?_
    exact Sim.pure fun _ _ h => ⟨rfl, h⟩

theorem newOrder_keeps (h : HashOrder) (w d customerId : ℤ) (items : List NewOrderItem)
    (now : List Char) (output : NewOrderOutput F) :
    Keeps t₀ Any Any (newOrder h w d customerId items now output) := by
  rw [Keeps, newOrder]
  refine Sim.bind_eq (newOrderHome_keeps w d customerId items now output) fun r => ?_
  obtain ⟨result, out⟩ := r
  refine Sim.ite Iff.rfl (fun _ => Sim.pure fun _ _ h => ⟨rfl, h⟩) fun _ => ?_
  refine Sim.bind_eq (Sim.foldlM (I := fun _ => Open t₀ Any) (fun out remote _ => ?_) _ out)
    fun out => Sim.pure fun _ _ h => ⟨rfl, h⟩
  refine Sim.bind_eq (newOrderRemote_keeps Any.stable w remote items) fun quantities => ?_
  cases quantities with
  | none => exact Sim.failure
  | some quantities => exact (Sim.lift _).post fun _ _ _ _ h => ⟨h.1, h.2.2⟩

/-! ### Payment -/

theorem paymentHome_keeps (w d cWId cDId customerId : ℤ) (hAmount : F) (now : List Char) :
    Sim (Open t₀ Any) (paymentHome w d cWId cDId customerId hAmount now)
      (paymentHome w d cWId cDId customerId hAmount now) fun a b c c' =>
        a = b ∧ Paired t₀ [] Any c c' := by
  rw [paymentHome]
  refine (Sim.look (Query.findWarehouse _) fun _ _ => Open.alike).bind_eq fun wp => ?_
  refine Sim.allocateUndo.bind_eq fun _ => ?_
  refine Sim.save_read Any.stable (by decide) fun ware => ?_
  refine (Sim.assign Any.stable (by decide) ?_).bind_eq fun _ => ?_
  · rfl
  refine (Sim.look (Query.findDistrict _ _) fun _ _ => Paired.alike).bind_eq fun dp => ?_
  refine Sim.save_read Any.stable (by decide) fun dist => ?_
  refine (Sim.assign Any.stable (by decide) ?_).bind_eq fun _ => ?_
  · rfl
  refine (Sim.lift _).bind_eq fun hDate => Sim.of_fact fun _ => ?_
  refine (Sim.lift _).bind_eq fun hData => Sim.of_fact fun _ => ?_
  refine (Sim.insertHistory _).bind_eq fun history => ?_
  refine Sim.inserted.bind_eq fun _ => ?_
  exact Sim.pure fun _ _ h => ⟨rfl, h⟩

theorem internalPaymentRemote_keeps (w d : ℤ) (c : Option Ptr) (hAmount : F)
    (output : PaymentOutput F) : Keeps t₀ Any Any (internalPaymentRemote w d c hAmount output) := by
  rw [Keeps, internalPaymentRemote]
  refine Sim.allocateUndo.bind_eq fun _ => ?_
  refine Sim.save_read Any.stable (by decide) fun cust => ?_
  refine (Sim.lift _).bind_eq fun cData => Sim.of_fact fun _ => ?_
  refine (Sim.assign Any.stable (by decide) ?_).bind_eq fun _ => ?_
  · rfl
  exact Sim.pure fun _ _ h => ⟨rfl, h.toOpen⟩

theorem paymentRemote_keeps (w d cWId cDId cId : ℤ) (hAmount : F) (output : PaymentOutput F) :
    Keeps t₀ Any Any (paymentRemote w d cWId cDId cId hAmount output) := by
  rw [Keeps, paymentRemote]
  refine (Sim.look (Query.findCustomer _ _ _) fun _ _ => Open.alike).bind_eq fun c => ?_
  refine Sim.bind_eq (internalPaymentRemote_keeps w d c hAmount output) fun out => ?_
  exact Sim.pure fun _ _ h => ⟨rfl, h⟩

theorem paymentRemoteByName_keeps (w d cWId cDId : ℤ) (cLast : List Char) (hAmount : F)
    (output : PaymentOutput F) :
    Keeps t₀ Any Any (paymentRemoteByName w d cWId cDId cLast hAmount output) := by
  rw [Keeps, paymentRemoteByName]
  refine (Sim.look (Query.findCustomerByName _ _ _) fun _ _ => Open.alike).bind_eq fun c => ?_
  refine Sim.bind_eq (internalPaymentRemote_keeps w d c hAmount output) fun out => ?_
  exact Sim.pure fun _ _ h => ⟨rfl, h⟩

theorem payment_keeps (w d cWId cDId customerId : ℤ) (hAmount : F) (now : List Char) :
    Keeps t₀ Any Any (payment w d cWId cDId customerId hAmount now) := by
  rw [Keeps, payment]
  refine (Sim.look (Query.findCustomer _ _ _) fun _ _ => Open.alike).bind_eq fun c => ?_
  refine (paymentHome_keeps w d cWId cDId customerId hAmount now).bind_eq fun out => ?_
  exact (internalPaymentRemote_keeps w d c hAmount out).pre fun _ _ h => h.toOpen

theorem paymentByName_keeps (w d cWId cDId : ℤ) (cLast : List Char) (hAmount : F)
    (now : List Char) : Keeps t₀ Any Any (paymentByName w d cWId cDId cLast hAmount now) := by
  rw [Keeps, paymentByName]
  refine (Sim.look (Query.findCustomerByName _ _ _) fun _ _ => Open.alike).bind_eq fun c => ?_
  refine (Sim.look (Query.deref (by decide) c) fun _ _ => Open.alike).bind_eq fun cust => ?_
  refine (paymentHome_keeps w d cWId cDId cust.cId hAmount now).bind_eq fun out => ?_
  exact (internalPaymentRemote_keeps w d c hAmount out).pre fun _ _ h => h.toOpen

/-! ### Delivery -/

theorem deliverLine_keeps (hX : Stable X) (w d o : ℤ) (now : List Char) (total : F) (i : ℕ) :
    KeepsPaired t₀ X X (deliverLine w d o now total i) := by
  rw [KeepsPaired, deliverLine]
  refine (Sim.look (Query.findOrderLine _ _ _ _) fun _ _ => Paired.alike).bind_eq fun line => ?_
  refine Sim.save_read hX (by decide) fun l => ?_
  refine (Sim.assert fun _ _ _ => Iff.rfl).bind_eq fun _ => Sim.of_fact fun _ => ?_
  refine (Sim.lift _).bind_eq fun olDeliveryD => Sim.of_fact fun _ => ?_
  refine (Sim.assert fun _ _ _ => Iff.rfl).bind_eq fun _ => Sim.of_fact fun _ => ?_
  refine (Sim.assign hX (by decide) ?_).bind_eq fun _ => ?_
  · rfl
  exact Sim.pure fun _ _ h => ⟨rfl, h⟩

/-- **One district.** What is still to come lies in greater districts, so that it is not
changed by what is taken here. -/
theorem deliverDistrict_keeps {w carrierId : ℤ} {now : List Char} {d : ℤ} {ds : List ℤ}
    (hds : ∀ d' ∈ ds, d < d') :
    KeepsPaired (F := F) t₀ (Untaken w (d :: ds)) (Untaken w ds)
      (deliverDistrict w carrierId now d) := by
  have hrest : ∀ u t, Untaken (F := F) w (d :: ds) u t → Untaken w ds u t :=
    fun u t h d' hd' => h d' (List.mem_cons_of_mem _ hd')
  rw [KeepsPaired, deliverDistrict]
  refine (Sim.lift _).bind_eq fun key => Sim.of_fact fun hkey => ?_
  refine (Sim.query (Query.lowerBoundNewOrder key) fun _ _ => Paired.alike).bind_eq fun found => ?_
  cases found with
  | none => exact Sim.pure fun _ _ h => ⟨rfl, h.2.mono hrest⟩
  | some found =>
    obtain ⟨iterator, p⟩ := found
    have hfound : ∀ c c', Op.lowerBoundNewOrder key c.tables = some (some (iterator, p), c.tables) ∧
        Paired (F := F) t₀ [] (Untaken w (d :: ds)) c c' →
        Paired t₀ [] (fun u t => t.store.index .neworders iterator = some p ∧
          t.neworders.lowerBound key = some (iterator, p) ∧ Untaken w (d :: ds) u t) c c' := by
      rintro c c' ⟨hlb, u, hc, hc', hj, hw, hX⟩
      have hlb : c.tables.neworders.lowerBound key = some (iterator, p) :=
        congrArg Prod.fst (Option.some.inj hlb)
      exact ⟨u, hc, hc', hj, hw, (OrderedMap.lowerBound_eq_some.mp hlb).1, hlb, hX⟩
    refine Sim.bind_eq (Sim.read_newOrder.pre hfound) fun no => ?_
    by_cases hother : no.noDId ≠ d ∨ no.noWId ≠ w
    · simp only [if_pos hother]
      exact Sim.pure fun _ _ h => ⟨rfl, h.mono fun u t hX => hrest u t hX.2.2.2⟩
    · simp only [if_neg hother]
      obtain ⟨hd, hw⟩ := not_or.mp hother
      have hd : no.noDId = d := not_not.mp hd
      have hw : no.noWId = w := not_not.mp hw
      refine Sim.pre (P := Paired t₀ [] fun u t => t.store.index .neworders iterator = some p ∧
        p ∉ u.inserted .newOrder ∧
          makeNewOrderKey .checked no.noWId no.noDId no.noOId = some iterator ∧
            Untaken w (d :: ds) u t) ?_ ?_
      · refine Sim.take (Y := Untaken w ds) ?_ ?_
        · rintro u u' t t' hi hstore ⟨hiter, hX⟩ d' hd' q hq
          rw [oldestNewOrder_of_unlinked hiter hw hd (hds d' hd') hstore] at hq
          rw [hi]
          exact hrest u t hX d' hd' q hq
        · have hX := Untaken.stable (F := F) w ds
          refine (Sim.look (Query.findOrder _ _ _) fun _ _ => Paired.alike).bind_eq fun o => ?_
          refine (Sim.read (by decide) o).bind_eq fun order => ?_
          refine (Sim.assert fun _ _ _ => Iff.rfl).bind_eq fun _ => Sim.of_fact fun _ => ?_
          refine (Sim.save hX (by decide)).bind_eq fun _ => ?_
          refine (Sim.assign hX (by decide) ?_).bind_eq fun _ => ?_
          · rfl
          refine Sim.bind_eq (Sim.foldlM (I := fun _ => Paired t₀ [] (Untaken w ds))
            (fun total i _ => deliverLine_keeps hX w d no.noOId now total i) _ 0) fun total => ?_
          refine (Sim.look (Query.findCustomer _ _ _) fun _ _ => Paired.alike).bind_eq fun c => ?_
          refine Sim.save_read hX (by decide) fun cust => ?_
          refine (Sim.assign hX (by decide) ?_).bind_eq fun _ => ?_
          · rfl
          exact Sim.pure fun _ _ h => ⟨rfl, h⟩
      · -- the row is the oldest of the district
        rintro c c' ⟨u, hc, hc', hj, hwo, ⟨q, hq, hno⟩, hidx, hlb, hX⟩
        obtain rfl := Option.some.inj hq
        refine ⟨u, hc, hc', hj, hwo, hidx, ?_, ?_, hX⟩
        · refine hX d List.mem_cons_self p ?_
          have hcell : c.tables.cell .newOrder p = some no := hno
          simp [Tables.oldestNewOrder, hkey, hlb, hcell, hd, hw]
        · obtain ⟨no', hno', hiter⟩ := newOrder_of_index hj.linked hidx
          obtain rfl := Option.some.inj (hno.symm.trans hno')
          exact hiter

/-- **`delivery`**, when it takes no row that was inserted on the way. -/
theorem delivery_keeps (w carrierId : ℤ) (now : List Char) :
    Keeps (F := F) t₀ (Untaken w districtIds) Any (delivery w carrierId now) := by
  rw [Keeps, delivery]
  refine Sim.allocateUndo.bind_eq fun _ => ?_
  have hloop : ∀ ds, ds.Pairwise (· < ·) → Sim (Paired t₀ [] (Untaken w ds))
      (ds.mapM (deliverDistrict w carrierId now)) (ds.mapM (deliverDistrict (F := F) w carrierId now))
      fun a b c c' => a = b ∧ Paired t₀ [] (Untaken w []) c c' := by
    intro ds hds
    induction ds with
    | nil => exact Sim.pure fun _ _ h => ⟨rfl, h⟩
    | cons d ds ih =>
      rw [List.mapM_cons]
      obtain ⟨hlt, hds⟩ := List.pairwise_cons.mp hds
      refine Sim.bind_eq (deliverDistrict_keeps hlt) fun info => ?_
      refine (ih hds).bind_eq fun infos => ?_
      exact Sim.pure fun _ _ h => ⟨rfl, h⟩
  refine (hloop districtIds (by decide)).bind_eq fun orders => ?_
  exact Sim.pure fun _ _ h => ⟨rfl, h.toOpen.mono fun _ _ _ => trivial⟩

/-! ### All of them -/

/-- What a transaction asks of the buffer and the tables: of the rows a delivery takes,
none was inserted since the buffer is in use. -/
def Txn.Undoable : Txn F → TPCCUndo F → Tables F → Prop
  | delivery w _ _ => Untaken w districtIds
  | _ => Any

omit [Money F] in
theorem Keeps.discard {α : Type} {x : Tx F α} {Y : TPCCUndo F → Tables F → Prop}
    (h : Keeps t₀ X Y x) : Keeps t₀ X Y (x >>= fun _ => pure ()) :=
  Sim.bind_eq h fun _ => Sim.pure fun _ _ hc => ⟨rfl, hc⟩

/-- **Every transaction keeps its buffer.** -/
theorem Txn.keeps (x : Txn F) : Keeps t₀ x.Undoable Any x.exec := by
  cases x with
  | newOrder h w d c items now output => exact (newOrder_keeps h w d c items now output).discard
  | newOrderHome w d c items now output => exact (newOrderHome_keeps w d c items now output).discard
  | newOrderRemote home remote items =>
    exact (newOrderRemote_keeps Any.stable home remote items).discard
  | payment w d cW cD c hAmount now => exact (payment_keeps w d cW cD c hAmount now).discard
  | paymentByName w d cW cD cLast hAmount now =>
    exact (paymentByName_keeps w d cW cD cLast hAmount now).discard
  | paymentHome w d cW cD c hAmount now =>
    exact Keeps.discard ((paymentHome_keeps w d cW cD c hAmount now).post
      fun _ _ _ _ h => ⟨h.1, h.2.toOpen⟩)
  | paymentRemote w d cW cD c hAmount output =>
    exact (paymentRemote_keeps w d cW cD c hAmount output).discard
  | paymentRemoteByName w d cW cD cLast hAmount output =>
    exact (paymentRemoteByName_keeps w d cW cD cLast hAmount output).discard
  | delivery w carrierId now => exact (delivery_keeps w carrierId now).discard

end TpccBench
