import TpccBench.Db.Insertions

/-!
# Orders that are refused

All items of an order are looked up before anything is written. So an order is refused
exactly when an item is missing, a refused order has left no trace, and every part of it is
refused by every instance that has the same items.
-/

namespace TpccBench

open Prog

variable {F : Type}

/-- The items table has an item with this id: items are numbered from one on. -/
def Tables.HasItem (t : Tables F) (id : ℤ) : Prop := (t.items[(id - 1).toNat]?).isSome

namespace Tx

/-- **Items are looked up** one after the other, and nothing changes. -/
theorem findAndValidateItems_spec (t : Tables F) {items : List NewOrderItem}
    (hids : ∀ item ∈ items, 1 ≤ item.iId) :
    ∃ tuples, findAndValidateItems items t = some (tuples, t) ∧
      (tuples = none ↔ ∃ item ∈ items, ¬t.HasItem item.iId) := by
  induction items with
  | nil => exact ⟨some [], rfl, by simp⟩
  | cons item items ih =>
    obtain ⟨hid, hids⟩ := List.forall_mem_cons.mp hids
    obtain ⟨rest, hrest, hnone⟩ := ih hids
    have hfind : Op.findItem item.iId t = some (t.items[(item.iId - 1).toNat]?, t) := if_pos hid
    rw [findAndValidateItems, bind_apply, hfind, Option.bind_some]
    cases hitem : t.items[(item.iId - 1).toNat]? with
    | none =>
      have hmissing : ¬t.HasItem item.iId := by rw [Tables.HasItem, hitem]; simp
      exact ⟨none, rfl, fun _ => ⟨item, List.mem_cons_self, hmissing⟩, fun _ => rfl⟩
    | some tuple =>
      have hfound : t.HasItem item.iId := by rw [Tables.HasItem, hitem]; rfl
      refine ⟨rest.map (tuple :: ·), ?_, ?_⟩
      · exact (congrArg (Option.bind · _) hrest).trans rfl
      · simp only [Option.map_eq_none_iff, hnone, List.mem_cons, exists_eq_or_imp, hfound, not_true,
          false_or]

/-- **A part is refused** exactly when an item is missing. -/
theorem newOrderRemote_refuses_iff {c c' : Call F} {home remote : ℤ} {items : List NewOrderItem}
    (hids : ∀ item ∈ items, 1 ≤ item.iId) :
    newOrderRemote home remote items c = some (none, c') ↔
      (∃ item ∈ items, ¬c.tables.HasItem item.iId) ∧ c' = c := by
  obtain ⟨tuples, hfind, hnone⟩ := findAndValidateItems_spec c.tables hids
  have htx : (findAndValidateItems items).tx c = some (tuples, c) := by
    rw [Op.tx_apply, hfind]
    rfl
  rw [newOrderRemote, bind_apply, htx, Option.bind_some, ← hnone]
  cases tuples with
  | none => simp [pure_apply, eq_comm]
  | some tuples =>
    refine ⟨fun h => ?_, fun h => absurd h.1 (by simp)⟩
    obtain ⟨_, c₁, -, h⟩ := bind_eq_some h
    obtain ⟨quantities, c₂, -, h⟩ := bind_eq_some h
    exact absurd (congrArg Prod.fst (Option.some.inj h)) (by simp)

end Tx

/-- **The rows an order starts from**: its district and its customer, and no order yet with
the next id of the district, as the source asserts. -/
structure Tables.Orderable (t : Tables F) (w d c : ℤ) (dist : District F) : Prop where
  sound : t.Sound
  district : t.db.row .district (w, d) = some dist
  customer : (t.db.row .customer (w, d, c)).isSome
  nextKey : (primary .order (w, d, dist.dNextOId)).isSome
  next : t.db.row .order (w, d, dist.dNextOId) = none

/-- A row that is there is found, and read. -/
theorem Op.find_deref {k : Kind} {id : RowId k} {x : Op F (Option Ptr)} (hx : Shows.FindsRow x k id)
    {t : Tables F} {r : Row F k} (h : t.db.row k id = some r) :
    ∃ p, x t = some (some p, t) ∧ deref k (some p) t = some (r, t) := by
  obtain ⟨p, hp, hcell⟩ := Tables.lookup_of_row h
  exact ⟨p, hx.of_lookup hp, by rw [deref_apply, hcell, Option.map_some]⟩

namespace Tx

/-- The same in a transaction. -/
theorem find_deref {k : Kind} {id : RowId k} {x : Op F (Option Ptr)} (hx : Shows.FindsRow x k id)
    {t : Tables F} {r : Row F k} (h : t.db.row k id = some r) (undo : Option (Option (TPCCUndo F))) :
    ∃ p, x.tx ⟨t, undo⟩ = some (some p, (⟨t, undo⟩ : Call F)) ∧
      (Op.deref k (some p)).tx ⟨t, undo⟩ = some (r, (⟨t, undo⟩ : Call F)) := by
  obtain ⟨p, hfind, hread⟩ := Op.find_deref hx h
  exact ⟨p, by rw [Op.tx_apply, hfind]; rfl, by rw [Op.tx_apply, hread]; rfl⟩

variable [Money F]

/-- **The home part is refused** exactly when an item is missing. -/
theorem newOrderHomeUncombined_refuses_iff {t : Tables F} {undo : Option (Option (TPCCUndo F))}
    {w d c : ℤ} {dist : District F} (ht : t.Orderable w d c dist) {items : List NewOrderItem}
    (hids : ∀ item ∈ items, 1 ≤ item.iId) {now : List Char} {output : NewOrderOutput F} {c' : Call F} :
    (∃ out, newOrderHomeUncombined w d c items now output ⟨t, undo⟩ = some ((none, out), c')) ↔
      (∃ item ∈ items, ¬t.HasItem item.iId) ∧ c' = ⟨t, undo⟩ := by
  obtain ⟨cust, hcust⟩ := Option.isSome_iff_exists.mp ht.customer
  obtain ⟨p₁, hfind₁, hread₁⟩ := find_deref (Shows.findDistrict_finds w d) ht.district undo
  have hnone : t.lookup .order (w, d, dist.dNextOId) = none :=
    (Tables.lookup_eq_none_iff ht.sound.linked).mpr ht.next
  have hfind₂ : (Op.findOrder w d dist.dNextOId).tx ⟨t, undo⟩ = some (none, (⟨t, undo⟩ : Call F)) := by
    rw [Op.tx_apply, Shows.findOrder_finds w d dist.dNextOId t, if_pos ht.nextKey, hnone]
    rfl
  obtain ⟨p₃, hfind₃, hread₃⟩ := find_deref (Shows.findCustomer_finds w d c) hcust undo
  obtain ⟨tuples, hitems, hmissing⟩ := findAndValidateItems_spec t hids
  have hitems' : (findAndValidateItems items).tx ⟨t, undo⟩ = some (tuples, (⟨t, undo⟩ : Call F)) := by
    rw [Op.tx_apply, hitems]
    rfl
  rw [← hmissing, newOrderHomeUncombined, bind_apply, hfind₁, Option.bind_some, bind_apply, hread₁,
    Option.bind_some, bind_apply, hfind₂, Option.bind_some, bind_apply, assert, if_pos rfl,
    Option.bind_some, bind_apply, hfind₃, Option.bind_some, bind_apply, hread₃, Option.bind_some,
    bind_apply, hitems', Option.bind_some]
  cases tuples with
  | none => simp [pure_apply, eq_comm]
  | some tuples =>
    refine ⟨fun hrun => ?_, fun h => absurd h.1 (by simp)⟩
    obtain ⟨out, h⟩ := hrun
    -- the statements that follow end with the answer true
    refine absurd (Triple.last (P := fun _ => True) (R := fun a _ => a.1.isSome = true) (fun _ => ?_) _
      trivial _ _ h) (by simp)
    iterate 11 refine Triple.last fun _ => ?_
    refine Triple.last fun quantities => ?_
    cases quantities with
    | none => exact Triple.failure
    | some q => exact Triple.pure fun _ _ => rfl

theorem newOrderHome_refuses_iff {c c' : Call F} {w d cId : ℤ} {items : List NewOrderItem} {now : List Char}
    {output : NewOrderOutput F} :
    (∃ out, newOrderHome w d cId items now output c = some ((false, out), c')) ↔
      ∃ out, newOrderHomeUncombined w d cId items now output c = some ((none, out), c') := by
  constructor
  · rintro ⟨out, h⟩
    obtain ⟨⟨qs, out₁⟩, c₁, hhome, hret⟩ := bind_eq_some h
    cases qs with
    | none =>
      obtain ⟨-, rfl⟩ := Prod.mk.inj (Option.some.inj hret)
      exact ⟨out₁, hhome⟩
    | some q =>
      obtain ⟨combined, c₂, -, hret⟩ := bind_eq_some hret
      exact absurd (congrArg (fun r => r.1.1) (Option.some.inj hret)) (by simp)
  · rintro ⟨out, h⟩
    refine ⟨out, ?_⟩
    rw [newOrderHome, bind_apply, h]
    rfl

theorem newOrder_refuses_iff {c c' : Call F} {h : HashOrder} {w d cId : ℤ} {items : List NewOrderItem}
    {now : List Char} {output : NewOrderOutput F} :
    (∃ out, newOrder h w d cId items now output c = some ((false, out), c')) ↔
      ∃ out, newOrderHome w d cId items now output c = some ((false, out), c') := by
  constructor
  · rintro ⟨out, h⟩
    obtain ⟨⟨result, out₁⟩, c₁, hhome, hret⟩ := bind_eq_some h
    cases result with
    | false =>
      obtain ⟨-, rfl⟩ := Prod.mk.inj (Option.some.inj hret)
      exact ⟨out₁, hhome⟩
    | true =>
      obtain ⟨combined, c₂, -, hret⟩ := bind_eq_some hret
      exact absurd (congrArg (fun r => r.1.1) (Option.some.inj hret)) (by simp)
  · rintro ⟨out, h⟩
    refine ⟨out, ?_⟩
    rw [newOrder, bind_apply, h]
    rfl

/-! ### The vector of the quantities -/

/-- `newOrderRemote` with its parameter `out_quantities`, which it resizes and fills. -/
def newOrderRemoteInto (homeWarehouse remoteWarehouse : ℤ) (items : List NewOrderItem)
    (outQuantities : List ℤ) : Tx F (Bool × List ℤ) := do
  match ← (findAndValidateItems items).tx with
  | none => return (false, outQuantities)
  | some _ => do
    allocateUndo
    let resized := outQuantities.take items.length ++
      List.replicate (items.length - outQuantities.length) 0
    let quantities ← items.zipIdx.foldlM (fun quantities e => do
      return quantities.set e.2 (← updateStock homeWarehouse remoteWarehouse e.1)) resized
    return (true, quantities)

omit [Money F] in
/-- Filling a vector is collecting the results. -/
theorem fill_eq_mapM {f : NewOrderItem → Tx F ℤ} (items : List NewOrderItem) (done rest : List ℤ)
    (hrest : rest.length = items.length) :
    (items.zipIdx done.length).foldlM (fun quantities e => do return quantities.set e.2 (← f e.1))
      (done ++ rest) = do return done ++ (← items.mapM f) := by
  induction items generalizing done rest with
  | nil =>
    obtain rfl := List.length_eq_zero_iff.mp hrest
    simp
  | cons item items ih =>
    obtain ⟨q₀, rest, rfl⟩ := List.exists_cons_of_length_eq_add_one hrest
    have hset : ∀ q : ℤ, (done ++ q₀ :: rest).set done.length q = (done ++ [q]) ++ rest := fun q => by
      rw [List.set_append_right _ _ (le_refl _), Nat.sub_self, List.set_cons_zero, List.append_assoc]
      rfl
    have hlen : ∀ q : ℤ, done.length + 1 = (done ++ [q]).length := fun q => by simp
    rw [List.zipIdx_cons, List.foldlM_cons, List.mapM_cons]
    simp only [bind_assoc, pure_bind, hset]
    refine bind_congr fun q => ?_
    rw [hlen q, ih (done ++ [q]) rest (by simpa using hrest)]
    simp

omit [Money F] in
/-- The vector holds what is returned, or what it held. -/
theorem newOrderRemoteInto_eq (home remote : ℤ) (items : List NewOrderItem) (outQuantities : List ℤ) :
    newOrderRemoteInto (F := F) home remote items outQuantities = do
      let quantities ← newOrderRemote home remote items
      return (quantities.isSome, quantities.getD outQuantities) := by
  rw [newOrderRemoteInto, newOrderRemote, bind_assoc]
  refine bind_congr fun tuples => ?_
  cases tuples with
  | none => rfl
  | some tuples =>
    have hfill := fill_eq_mapM (f := updateStock (F := F) home remote) items []
      (outQuantities.take items.length ++ List.replicate (items.length - outQuantities.length) 0)
      (by simp only [List.length_append, List.length_take, List.length_replicate]; omega)
    simp only [List.length_nil, List.nil_append] at hfill
    simp only [bind_assoc, pure_bind, hfill]
    rfl

omit [Money F] in
theorem newOrderRemoteInto_refuses_iff {c c' : Call F} {home remote : ℤ} {items : List NewOrderItem}
    (hids : ∀ item ∈ items, 1 ≤ item.iId) {outQuantities qs : List ℤ} :
    newOrderRemoteInto home remote items outQuantities c = some ((false, qs), c') ↔
      (∃ item ∈ items, ¬c.tables.HasItem item.iId) ∧ qs = outQuantities ∧ c' = c := by
  rw [newOrderRemoteInto_eq]
  constructor
  · intro h
    obtain ⟨q, c₁, hrun, hret⟩ := bind_eq_some h
    obtain ⟨heq, rfl⟩ := Prod.mk.inj (Option.some.inj hret)
    obtain ⟨hnone, rfl⟩ := Prod.mk.inj heq
    obtain rfl := Option.not_isSome_iff_eq_none.mp (by rw [hnone]; simp)
    obtain ⟨hmissing, rfl⟩ := (newOrderRemote_refuses_iff hids).mp hrun
    exact ⟨hmissing, rfl, rfl⟩
  · rintro ⟨hmissing, rfl, rfl⟩
    rw [bind_apply, (newOrderRemote_refuses_iff hids).mpr ⟨hmissing, rfl⟩]
    rfl

end Tx

variable [Money F]

/-- A new order is refused, and leaves the call as it was. -/
theorem Tables.Orderable.newOrder_refuses_iff {t : Tables F} {w d c : ℤ} {dist : District F}
    (ht : t.Orderable w d c dist) {items : List NewOrderItem} (hids : ∀ item ∈ items, 1 ≤ item.iId) (h : HashOrder)
    (now : List Char) (output : NewOrderOutput F) (undo : Option (Option (TPCCUndo F))) (c' : Call F) :
    (∃ out, Tx.newOrder h w d c items now output ⟨t, undo⟩ = some ((false, out), c')) ↔
      (∃ item ∈ items, ¬t.HasItem item.iId) ∧ c' = ⟨t, undo⟩ := by
  rw [Tx.newOrder_refuses_iff, Tx.newOrderHome_refuses_iff, Tx.newOrderHomeUncombined_refuses_iff ht hids]

/-- **An order is refused** exactly when an item is missing, and then nothing has changed: not
the tables, not the variable for the undo buffer, not the buffer. Every part of the order,
on every instance with these items, is decided as the home part is; if it is refused, it
has not changed anything either, nor its vector. -/
theorem refused_iff {t : Tables F} {w d c : ℤ} {dist : District F} (ht : t.Orderable w d c dist)
    {items : List NewOrderItem} (hids : ∀ item ∈ items, 1 ≤ item.iId) (h : HashOrder) (now : List Char)
    (output : NewOrderOutput F) (undo : Option (Option (TPCCUndo F))) :
    (∀ c', (∃ out, Tx.newOrder h w d c items now output ⟨t, undo⟩ = some ((false, out), c')) ↔
      (∃ item ∈ items, ¬t.HasItem item.iId) ∧ c' = ⟨t, undo⟩) ∧
    ∀ (there : Call F) (home remote : ℤ) (outQuantities : List ℤ), there.tables.items = t.items →
      ((∃ qs c', Tx.newOrderRemoteInto home remote items outQuantities there = some ((false, qs), c')) ↔
        ∃ out c', Tx.newOrderHome w d c items now output ⟨t, undo⟩ = some ((false, out), c')) ∧
      ∀ qs c', Tx.newOrderRemoteInto home remote items outQuantities there = some ((false, qs), c') →
        qs = outQuantities ∧ c' = there := by
  refine ⟨fun c' => ht.newOrder_refuses_iff hids h now output undo c',
    fun there home remote outQuantities hitems => ⟨?_, fun qs c' hrun => ?_⟩⟩
  · have hsame : ∀ id, there.tables.HasItem id ↔ t.HasItem id := fun id => by
      rw [Tables.HasItem, Tables.HasItem, hitems]
    have hhome : (∃ out c', Tx.newOrderHome w d c items now output ⟨t, undo⟩ = some ((false, out), c')) ↔
        ∃ item ∈ items, ¬t.HasItem item.iId := by
      rw [exists_comm]
      simp only [Tx.newOrderHome_refuses_iff, Tx.newOrderHomeUncombined_refuses_iff ht hids]
      simp
    rw [hhome]
    simp only [Tx.newOrderRemoteInto_refuses_iff hids, hsame]
    simp
  · exact ((Tx.newOrderRemoteInto_refuses_iff hids).mp hrun).2

theorem smallTables_orderable : ∃ dist, smallTables.Orderable 1 1 1 dist := by
  have hdist : (smallTables.db.row .district (1, 1)).map (fun dist => dist.dNextOId) = some 1 := by
    decide +kernel
  obtain ⟨dist, hdist, hnext⟩ := Option.map_eq_some_iff.mp hdist
  have hvacant : (smallTables.db.row .order (1, 1, 1)).isNone := by decide +kernel
  refine ⟨dist, smallTables_sound, hdist, by decide +kernel, ?_, ?_⟩
  · rw [hnext]
    decide
  · rw [hnext]
    exact Option.isNone_iff_eq_none.mp hvacant

/-- An order of an item that is there and one that is not. -/
theorem refused_small :
    ∃ out, Tx.newOrder .asInserted 1 1 1 [⟨1, 1, 1⟩, ⟨2, 1, 1⟩] (List.replicate 14 '0') .new
      ⟨smallTables, some none⟩ = some ((false, out), ⟨smallTables, some none⟩) := by
  obtain ⟨dist, ht⟩ := smallTables_orderable
  have hmissing : ¬smallTables.HasItem 2 := by
    rw [Tables.HasItem]
    decide +kernel
  exact ((refused_iff ht (by simp) .asInserted (List.replicate 14 '0') .new (some none)).1 _).mpr
    ⟨⟨⟨2, 1, 1⟩, by simp, hmissing⟩, rfl⟩

end TpccBench
