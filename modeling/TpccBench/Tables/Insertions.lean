import TpccBench.Lib.Triple
import TpccBench.Tables.Store

/-!
# The insertions

The `insert*` functions fill the tables row by row. None of them touches what is there
(`TpccBench.Grows`), and so they keep tables well formed.

What an operation does to the tables of *other* operations is said by `TpccBench.Evolves`: it
keeps indexes and rows in agreement, hands out addresses in order, and a row that lives on
stays linked where it is.
-/

namespace TpccBench

open Prog

variable {F : Type} {t t' t'' : Tables F}

/-- **Well-formed tables**: every index entry is a link of the row it leads to, all links
of which lead to it, and no address in the tables is of a row that was freed. -/
structure Tables.WellFormed (t : Tables F) : Prop where
  linked : t.store.Linked (schema F)
  customersByName : ∀ p ∈ t.customersByName, (t.store.cell .customer p).isSome
  history : ∀ p ∈ t.history, (t.store.cell .history p).isSome

theorem Tables.empty_wellFormed : (Tables.empty : Tables F).WellFormed where
  linked l p h := by
    obtain ⟨i, key⟩ := l
    cases i <;> exact absurd h (by simp [Tables.store, Tables.empty])
  customersByName _ h := absurd h List.not_mem_nil
  history _ h := absurd h List.not_mem_nil

/-- The tables may have changed, but rows that live on are linked where they were. -/
structure Evolves (t t' : Tables F) : Prop where
  linked : t.store.Linked (schema F) → t'.store.Linked (schema F)
  next_le (k : Kind) : t.rest.next k ≤ t'.rest.next k
  links {k : Kind} {p : Ptr} {r' : Row F k} : p < t.rest.next k → t'.store.cell k p = some r' →
    ∃ r, t.store.cell k p = some r ∧ rowLinks k r' = rowLinks k r

theorem Evolves.refl (t : Tables F) : Evolves t t := ⟨id, fun _ => le_rfl, fun _ h => ⟨_, h, rfl⟩⟩

theorem Evolves.trans (h : Evolves t t') (h' : Evolves t' t'') : Evolves t t'' where
  linked hl := h'.linked (h.linked hl)
  next_le k := (h.next_le k).trans (h'.next_le k)
  links hp hr := by
    obtain ⟨r', hr', hl'⟩ := h'.links (lt_of_lt_of_le hp (h.next_le _)) hr
    obtain ⟨r, hr, hl⟩ := h.links hp hr'
    exact ⟨r, hr, hl'.trans hl⟩

/-- Nothing but allocations and new entries. -/
structure Grows (t t' : Tables F) : Prop where
  evolves : Evolves t t'
  live (k : Kind) (p : Ptr) : (t.store.cell k p).isSome → (t'.store.cell k p).isSome
  customersByName : ∀ p ∈ t'.customersByName,
    p ∈ t.customersByName ∨ (t'.store.cell .customer p).isSome
  history : ∀ p ∈ t'.history, p ∈ t.history ∨ (t'.store.cell .history p).isSome

theorem Grows.wellFormed (h : Grows t t') (hwf : t.WellFormed) : t'.WellFormed where
  linked := h.evolves.linked hwf.linked
  customersByName p hp := (h.customersByName p hp).elim
    (fun hold => h.live _ p (hwf.customersByName p hold)) id
  history p hp := (h.history p hp).elim (fun hold => h.live _ p (hwf.history p hold)) id

/-- A row was allocated, and nothing but indexes changed otherwise. -/
theorem Grows.of_alloc {k : Kind} {r : Row F k}
    (hcell : t'.store.cell = (t.store.setCell k (t.rest.next k) (some r)).cell)
    (hlinked : t.store.Linked (schema F) → t'.store.Linked (schema F))
    (hnext : ∀ k', t'.rest.next k' = (t.rest.bump k).next k')
    (hname : ∀ p ∈ t'.customersByName, p ∈ t.customersByName ∨ (t'.store.cell .customer p).isSome)
    (hhist : ∀ p ∈ t'.history, p ∈ t.history ∨ (t'.store.cell .history p).isSome) :
    Grows t t' where
  evolves :=
    { linked := hlinked
      next_le := fun k' => by
        rw [hnext]
        exact t.rest.next_le_bump k k'
      links := fun {k' p r'} hp hr => by
        rw [hcell, Store.setCell_cell_of_ne _ _ fun h => ?_] at hr
        · exact ⟨r', hr, rfl⟩
        · obtain ⟨rfl, rfl⟩ := h
          exact absurd hp (lt_irrefl _) }
  live k' p hp := by
    rw [hcell]
    by_cases h : k' = k ∧ p = t.rest.next k
    · obtain ⟨rfl, rfl⟩ := h
      rw [Store.setCell_cell_same]
      rfl
    · rwa [Store.setCell_cell_of_ne _ _ h]
  customersByName := hname
  history := hhist

/-! ### The operations -/

/-- What an insertion that has not failed did. -/
theorem Op.Inserts.of_eq_some {x : Op F Ptr} {k : Kind} {r : Row F k} (hx : Op.Inserts x k r) {p : Ptr}
    (h : x t = some (p, t')) :
    ∃ ls, rowLinks k r = some ls ∧ (∀ l ∈ ls, t.store.index l.1 l.2 = none) ∧
      p = t.rest.next k ∧ t'.store = (t.store.setCell k p (some r)).setIndex ls (some p) ∧
      t'.rest = t.rest.bump k := by
  rcases hx t with ⟨ls, t₁, hls, hidx, hrun, hstore, hrest⟩ | ⟨hrun, -⟩
  · obtain ⟨rfl, rfl⟩ := Prod.mk.inj (Option.some.inj (hrun.symm.trans h))
    exact ⟨ls, hls, hidx, rfl, hstore, hrest⟩
  · exact absurd (hrun.symm.trans h) (by simp)

theorem Op.Inserts.grows {x : Op F Ptr} {k : Kind} {r : Row F k} (hx : Op.Inserts x k r) {p : Ptr}
    (h : x t = some (p, t')) : Grows t t' := by
  obtain ⟨ls, hls, hidx, rfl, hstore, hrest⟩ := hx.of_eq_some h
  have hname : t'.customersByName = t.customersByName := congrArg Rest.customersByName hrest
  have hhist : t'.history = t.history := congrArg Rest.history hrest
  refine Grows.of_alloc (by rw [hstore]; rfl) (fun hl => ?_) (fun _ => by rw [hrest])
    (fun p hp => Or.inl (hname ▸ hp)) fun p hp => Or.inl (hhist ▸ hp)
  rw [hstore]
  exact hl.insert (t.cell_next k) hls hidx

theorem insertHistory_grows {r : History F} {p : Ptr}
    (h : Op.insertHistory r t = some (p, t')) : Grows t t' := by
  obtain ⟨t₁, hrun, hstore, hrest⟩ := Op.insertHistory_apply t r
  obtain ⟨rfl, rfl⟩ := Prod.mk.inj (Option.some.inj (hrun.symm.trans h))
  have hname : t₁.customersByName = t.customersByName := congrArg Rest.customersByName hrest
  have hhist : t₁.history = t.history ++ [t.rest.next .history] := congrArg Rest.history hrest
  refine Grows.of_alloc (by rw [hstore]) (fun hl => ?_) (fun _ => by rw [hrest])
    (fun p hp => Or.inl (hname ▸ hp)) fun p hp => ?_
  · rw [hstore]
    exact hl.alloc _ (t.cell_next .history)
  · rw [hhist] at hp
    rcases List.mem_append.mp hp with hp | hp
    · exact Or.inl hp
    · rw [List.mem_singleton.mp hp, hstore, Store.setCell_cell_same]
      exact Or.inr rfl

/-- The zero key may be lost on the way into its tree, which leaves a row that is not
linked. -/
theorem insertWarehouse_grows {w : Warehouse F} (h : Op.insertWarehouse w t = some ((), t')) :
    Grows t t' := by
  have hfind : Op.findIn .warehouses w.wId t =
      some (t.store.index (.tree .warehouses) w.wId, t) := rfl
  by_cases hidx : t.store.index (.tree .warehouses) w.wId = none
  · obtain ⟨t₁, hnew, hstore, hrest, htree, -⟩ := Op.new_apply t .warehouse w
    set t₂ := t₁.setTree .warehouses ((t₁.tree .warehouses).insert w.wId (t.rest.next .warehouse))
      with ht₂
    have hrun : Op.insertWarehouse w t = some ((), t₂) := by
      simp only [Op.insertWarehouse, Op.insert, bind_apply, hfind, hidx, assert, if_true,
        Option.bind_some, hnew, Op.insertIn, pure_apply, ← ht₂]
    obtain rfl := (Prod.mk.inj (Option.some.inj (hrun.symm.trans h))).2
    have hrest₂ : t₂.rest = t.rest.bump .warehouse := hrest
    have hname : t₂.customersByName = t.customersByName := congrArg Rest.customersByName hrest₂
    have hhist : t₂.history = t.history := congrArg Rest.history hrest₂
    have hnone : t.store.cell .warehouse (t.rest.next .warehouse) = none := t.cell_next .warehouse
    have hcell : t₂.store.cell = (t.store.setCell .warehouse (t.rest.next .warehouse) (some w)).cell :=
      (congrArg Store.cell hstore : t₁.store.cell = _)
    refine Grows.of_alloc hcell (fun hl => ?_) (fun _ => by rw [hrest₂])
      (fun p hp => Or.inl (hname ▸ hp)) fun p hp => Or.inl (hhist ▸ hp)
    rcases (t₁.tree .warehouses).find_insert_or w.wId (t.rest.next .warehouse) with hins | hlost
    · rw [t₁.store_setTree .warehouses _ w.wId (some _) hins, hstore]
      exact hl.insert hnone rfl fun l hl' => by rw [List.mem_singleton.mp hl', hidx]
    · have hsame : t₂.store = t₁.store := by
        refine Store.ext rfl (funext fun i => funext fun key => ?_)
        cases i with
        | neworders => rfl
        | tree n =>
          by_cases hn : n = .warehouses
          · subst hn
            simp [ht₂, Tables.store, Tables.setTree, hlost]
          · simp [ht₂, Tables.store, Tables.setTree, hn]
      rw [hsame, hstore]
      exact hl.alloc _ hnone
  · have hrun : Op.insertWarehouse w t = none := by
      simp only [Op.insertWarehouse, Op.insert, bind_apply, hfind, assert, if_neg hidx,
        Option.bind_some, Option.bind_none]
    exact absurd (hrun.symm.trans h) (by simp)

/-- An insertion that does not return what it has inserted. -/
theorem grows_of_discard {x : Op F Ptr} {k : Kind} {r : Row F k} (hx : Op.Inserts x k r) {y : Op F Unit}
    (hy : y = x >>= fun _ => pure ()) (h : y t = some ((), t')) : Grows t t' := by
  rw [hy, bind_apply] at h
  obtain ⟨⟨p, t₁⟩, hrun, h⟩ := Option.bind_eq_some_iff.mp h
  obtain rfl := (Prod.mk.inj (Option.some.inj h)).2
  exact hx.grows hrun

theorem insertStock_grows {stock : Stock} (h : Op.insertStock stock t = some ((), t')) :
    Grows t t' :=
  grows_of_discard (Op.insertKeyed_inserts (F := F) (k := .stock) (r := stock)
    (fun _ => makeStockKey_ne_zero) rfl) (by simp only [Op.insertStock, bind_assoc]) h

theorem insertDistrict_grows {district : District F}
    (h : Op.insertDistrict district t = some ((), t')) : Grows t t' :=
  grows_of_discard (Op.insertKeyed_inserts (k := .district) (r := district)
    (fun _ => makeDistrictKey_ne_zero) rfl) (by simp only [Op.insertDistrict, bind_assoc]) h

theorem insertItem_grows {item : Item F} (h : Op.insertItem item t = some ((), t')) :
    Grows t t' := by
  rw [Op.insertItem] at h
  split at h
  · obtain rfl := (Prod.mk.inj (Option.some.inj h)).2
    exact ⟨⟨id, fun _ => le_rfl, fun _ hr => ⟨_, hr, rfl⟩⟩, fun _ _ => id, fun _ => Or.inl,
      fun _ => Or.inl⟩
  · exact absurd h (by simp)

/-- The part of `insertCustomer` that the other insertions have too. -/
theorem Op.insertCustomerById_inserts (c : Customer F) : Inserts (do
    let key ← makeCustomerKey .checked c.cWId c.cDId c.cId
    insert .customers .customer key c) .customer c :=
  insertKeyed_inserts (fun _ => makeCustomerKey_ne_zero) rfl

/-- **What an insertion of a customer did**: the row is linked by name once it is linked by its id. -/
theorem Op.insertCustomer_eq_some {c : Customer F} (h : Op.insertCustomer c t = some ((), t')) :
    ∃ x p t₁ l, Op.Inserts x .customer c ∧ x t = some (p, t₁) ∧ Op.byName t₁ = some (l, t₁) ∧
      (∀ e ∈ l[Op.lowerBound (Op.nameKey c) l]?, Op.customerByNameOrdering (Op.nameKey c) e.2 = true) ∧
      t' = { t₁ with customersByName := t₁.customersByName.insertIdx (Op.lowerBound (Op.nameKey c) l) p } := by
  rw [Op.insertCustomer, ← bind_assoc] at h
  obtain ⟨p, t₁, hrun, h⟩ := bind_eq_some h
  obtain ⟨l, t₂, hby, h⟩ := bind_eq_some h
  obtain ⟨l', hl, heq⟩ := Option.map_eq_some_iff.mp hby
  obtain ⟨rfl, rfl⟩ := Prod.mk.inj heq
  obtain ⟨_, t₃, hassert, h⟩ := bind_eq_some h
  obtain ⟨hnext, rfl⟩ := assert_eq_some hassert
  exact ⟨_, p, t₁, l', Op.insertCustomerById_inserts c, hrun, hby, hnext, (Prod.mk.inj (Option.some.inj h)).2.symm⟩

theorem insertCustomer_grows {customer : Customer F}
    (h : Op.insertCustomer customer t = some ((), t')) : Grows t t' := by
  obtain ⟨x, p, t₁, l, hx, hrun, -, -, rfl⟩ := Op.insertCustomer_eq_some h
  have hgrow := hx.grows hrun
  obtain ⟨ls, -, -, rfl, hstore, -⟩ := hx.of_eq_some hrun
  refine ⟨⟨hgrow.evolves.linked, hgrow.evolves.next_le, hgrow.evolves.links⟩, hgrow.live, ?_,
    hgrow.history⟩
  intro q hq
  rcases List.eq_or_mem_of_mem_insertIdx hq with rfl | hq
  · refine Or.inr ?_
    have hlive : t₁.store.cell .customer (t.rest.next .customer) = some customer := by
      rw [hstore, Store.setIndex_cell, Store.setCell_cell_same]
    exact Option.isSome_iff_exists.mpr ⟨customer, hlive⟩
  · exact hgrow.customersByName q hq

/-! ### All of them -/

/-- The row to insert. -/
inductive Insertion (F : Type)
  | item (item : Item F)
  | warehouse (warehouse : Warehouse F)
  | stock (stock : Stock)
  | district (district : District F)
  | customer (customer : Customer F)
  | order (order : Order)
  | orderLine (orderline : OrderLine F)
  | newOrder (wId dId oId : ℤ)
  | history (history : History F)

/-- Insert it. -/
def Insertion.exec : Insertion F → Op F Unit
  | item i => Op.insertItem i
  | warehouse w => Op.insertWarehouse w
  | stock s => Op.insertStock s
  | district d => Op.insertDistrict d
  | customer c => Op.insertCustomer c
  | order o => do let _ ← Op.insertOrder o
  | orderLine ol => do let _ ← Op.insertOrderLine ol
  | newOrder wId dId oId => do let _ ← Op.insertNewOrder wId dId oId
  | history h => do let _ ← Op.insertHistory h

/-- **Insertions make the tables grow.** -/
theorem Insertion.grows {i : Insertion F} (h : i.exec t = some ((), t')) : Grows t t' := by
  cases i with
  | item i => exact insertItem_grows h
  | warehouse w => exact insertWarehouse_grows h
  | stock s => exact insertStock_grows h
  | district d => exact insertDistrict_grows h
  | customer c => exact insertCustomer_grows h
  | order o => exact grows_of_discard (Op.insertOrder_inserts o) rfl h
  | orderLine ol => exact grows_of_discard (Op.insertOrderLine_inserts ol) rfl h
  | newOrder wId dId oId => exact grows_of_discard (Op.insertNewOrder_inserts wId dId oId) rfl h
  | history r =>
    rw [exec, bind_apply] at h
    obtain ⟨⟨p, t₁⟩, hrun, h⟩ := Option.bind_eq_some_iff.mp h
    obtain rfl := (Prod.mk.inj (Option.some.inj h)).2
    exact insertHistory_grows hrun

/-- Insert rows one after the other. -/
def insertAll (is : List (Insertion F)) : Op F Unit := is.forM Insertion.exec

/-- **Filled tables are well formed.** -/
theorem insertAll_wellFormed {is : List (Insertion F)} (ht : t.WellFormed)
    (h : insertAll is t = some ((), t')) : t'.WellFormed := by
  exact Triple.forM (fun i _ t₁ h₁ _ t₂ hrun => (Insertion.grows hrun).wellFormed h₁) t ht () t' h

/-- A database with one item, warehouse, district and customer. -/
def smallDatabase : List (Insertion ℚ) :=
  [.item ⟨1, 1, 5, .empty, .empty⟩,
    .warehouse ⟨1, 0, 0, .empty, .zero⟩,
    .stock ⟨1, 1, 50, 0, 0, 0, fun _ => .empty, .empty⟩,
    .district ⟨1, 1, 0, 0, 1, .empty, .zero⟩,
    .customer ⟨1, 1, 1, 0, 0, 0, 0, 0, 0, .empty, .empty, .empty, .zero, .empty, .empty, .empty,
      .empty⟩]

theorem insertAll_smallDatabase : (insertAll smallDatabase Tables.empty).isSome := by decide

def smallTables : Tables ℚ := ((insertAll smallDatabase Tables.empty).get insertAll_smallDatabase).2

theorem smallTables_wellFormed : smallTables.WellFormed :=
  insertAll_wellFormed Tables.empty_wellFormed (Option.some_get insertAll_smallDatabase).symm

end TpccBench
