import TpccBench.Db.ByName
import TpccBench.Db.Distributed
import TpccBench.Db.OrderStatus
import TpccBench.Tables.Stretch

/-!
# What is read of one warehouse

Order status and stock level read rows of one warehouse, and tables that show the same rows of it give the same
answer, or none (`TpccBench.SameWarehouse.internalOrderStatus`, `TpccBench.SameWarehouse.stockLevel`).

That takes an argument where a whole index is searched. The last order of a customer is looked for among the
orders of all customers, so where the customer has none the tables may meet different ones: but then there is
nothing to report on either side. And the customers in name order are those of all districts, but a search for a
name ends among those of its district (`TpccBench.Op.search_own`), so it finds the customer with the same id
(`TpccBench.SameWarehouse.findCustomerByName`).
-/

namespace TpccBench

open Prog Op

variable {F : Type}

/-- **The tables show the same rows of a warehouse.** -/
structure SameWarehouse (w : ℤ) (s t : Tables F) : Prop where
  left : s.Sound
  right : t.Sound
  row {k : Kind} {id : RowId k} : RowId.warehouse k id = w → s.db.row k id = t.db.row k id

/-- Two operations that leave two tables alone, and what their results have to do with each other. -/
abbrev Observes {α β : Type} (s t : Tables F) (x : Op F α) (y : Op F β) (R : α → β → Prop) : Prop :=
  Sim (fun a b => a = s ∧ b = t) x y fun p q a b => R p q ∧ a = s ∧ b = t

namespace SameWarehouse

variable {w d c : ℤ} {s t : Tables F}

/-! ### Rows -/

section Rows

variable {k : Kind} {id : RowId k}

/-- **A row is looked for.** -/
theorem find {x : Op F (Option Ptr)} (hx : Shows.FindsRow x k id) :
    Observes s t x x fun p q => p = s.lookup k id ∧ q = t.lookup k id := by
  rintro _ _ ⟨rfl, rfl⟩
  rw [hx, hx]
  split
  · exact Option.Rel.some ⟨⟨rfl, rfl⟩, rfl, rfl⟩
  · exact Option.Rel.none

/-- **A row of the warehouse is read.** -/
theorem deref (h : SameWarehouse w s t) (hid : RowId.warehouse k id = w) :
    Observes s t (Op.deref k (s.lookup k id)) (Op.deref k (t.lookup k id)) fun a b => a = b ∧ s.db.row k id = some a := by
  rintro _ _ ⟨rfl, rfl⟩
  have hread : ∀ t : Tables F, Op.deref k (t.lookup k id) t = (t.db.row k id).map fun r => (r, t) := fun t => by
    rw [Op.deref, Tables.row_eq, Option.map_bind]
    rfl
  rw [hread, hread, h.row hid]
  cases hrow : Tables.db _ |>.row k id with
  | none => exact Option.Rel.none
  | some r => exact Option.Rel.some ⟨⟨rfl, rfl⟩, rfl, rfl⟩

/-- A row is found in both tables, or in neither. -/
theorem lookup_eq_none_iff (h : SameWarehouse w s t) (hid : RowId.warehouse k id = w) :
    s.lookup k id = none ↔ t.lookup k id = none := by
  rw [Tables.lookup_eq_none_iff h.left.linked, Tables.lookup_eq_none_iff h.right.linked, h.row hid]

/-- A row is looked for, and is asserted to be missing. -/
theorem missing (h : SameWarehouse w s t) (hid : RowId.warehouse k id = w) {x : Op F (Option Ptr)}
    (hx : Shows.FindsRow x k id) :
    Observes s t (x >>= fun p => Prog.assert (p = none)) (x >>= fun p => Prog.assert (p = none)) fun _ _ => True := by
  refine (find hx).bind fun p q => Sim.of_fact ?_
  rintro ⟨rfl, rfl⟩
  exact (Sim.assert fun _ _ _ => h.lookup_eq_none_iff hid).post fun _ _ _ _ hQ => ⟨trivial, hQ.2.2⟩

end Rows

/-! ### Stock level -/

/-- **The lines of an order** are gone through. -/
theorem stockLevelLines (h : SameWarehouse w s t) (threshold o : ℤ) (ns : List ℕ) :
    Observes s t (Op.stockLevelLines w d threshold o ns) (Op.stockLevelLines w d threshold o ns) Eq := by
  induction ns with
  | nil => exact Sim.pure fun _ _ hP => ⟨rfl, hP⟩
  | cons n ns ih =>
    rw [Op.stockLevelLines]
    refine (find (Shows.findOrderLine_finds w d o n)).bind fun p q => Sim.of_fact ?_
    rintro ⟨hp, hq⟩
    have hid : RowId.warehouse .orderLine (w, d, o, (n : ℤ)) = w := rfl
    have hiff := h.lookup_eq_none_iff hid
    have hread := h.deref hid
    rw [← hp, ← hq] at hiff hread
    cases p with
    | none =>
      obtain rfl := hiff.mp rfl
      refine Sim.bind (Q := fun _ _ a b => a = s ∧ b = t) ?_ fun _ _ => Sim.pure fun _ _ hP => ⟨rfl, hP⟩
      refine Sim.forM (I := fun _ a b => a = s ∧ b = t) (fun _ _ => ?_) _
      exact (h.missing rfl (Shows.findOrderLine_finds w d o (n + 1))).post fun _ _ _ _ hQ => hQ.2
    | some p =>
      cases q with
      | none => exact absurd (hiff.mpr rfl) (by simp)
      | some q =>
        refine hread.bind fun l l' => Sim.of_fact ?_
        rintro ⟨rfl, -⟩
        refine (find (Shows.findStock_finds w l.olIId)).bind fun p q => Sim.of_fact ?_
        rintro ⟨rfl, rfl⟩
        refine (h.deref (k := .stock) rfl).bind fun st st' => Sim.of_fact ?_
        rintro ⟨rfl, -⟩
        exact ih.bind_eq fun sIIds => Sim.pure fun _ _ hP => ⟨rfl, hP⟩

/-- **`stockLevel`** reads one warehouse. -/
theorem stockLevel (h : SameWarehouse w s t) (d threshold : ℤ) :
    Observes s t (Op.stockLevel w d threshold) (Op.stockLevel w d threshold) Eq := by
  rw [Op.stockLevel]
  refine (find (Shows.findDistrict_finds w d)).bind fun p q => Sim.of_fact ?_
  rintro ⟨rfl, rfl⟩
  refine (h.deref (k := .district) rfl).bind fun dist dist' => Sim.of_fact ?_
  rintro ⟨rfl, -⟩
  refine Sim.bind_eq (Q := fun _ a b => a = s ∧ b = t) ?_ fun sIIds => Sim.pure fun _ _ hP => ⟨rfl, hP⟩
  exact Sim.mapM (I := fun _ a b => a = s ∧ b = t) (fun _ _ => h.stockLevelLines _ _ _) _

/-! ### Order status -/

/-- What is found where the customer has an order. -/
theorem lastOrder_of_isLastOrder (h : SameWarehouse w s t) (hw : validWarehouse w) (hd : validDistrict d)
    (hc : validCustomer c) {p : Ptr} (hp : s.IsLastOrder w d c (some p)) :
    ∃ order q, s.cell .order p = some order ∧ findLastOrderByCustomer w d c t = some (some q, t) ∧
      t.cell .order q = some order := by
  obtain ⟨order, hlive, ⟨rfl, rfl, rfl⟩, hmax⟩ := hp
  have hrow := (h.row (k := .order) rfl).symm.trans (hlive.row h.left.linked).2
  have hlast : ∀ o' order', t.db.row .order (order.oWId, order.oDId, o') = some order' → order'.oCId = order.oCId →
      o' ≤ order.oId := by
    intro o' order' hrow' hcid
    have hrow' := (h.row (k := .order) rfl).trans hrow'
    have hid : (order'.oWId, order'.oDId, order'.oId) = (order.oWId, order.oDId, o') := h.left.keyed.ids hrow'
    simp only [Prod.mk.injEq] at hid
    obtain ⟨p', hlive'⟩ := Tables.liveOrder_of_row hrow'
    rw [← hid.2.2]
    exact hmax p' order' hlive' ⟨hid.1, hid.2.1, hcid⟩
  obtain ⟨q, hfind, hread⟩ := findLastOrderByCustomer_row h.right hw hd hc hrow rfl hlast
  rw [deref_apply] at hread
  obtain ⟨order', hcell, heq⟩ := Option.map_eq_some_iff.mp hread
  obtain rfl := (Prod.mk.inj heq).1
  exact ⟨order', q, hlive.2, hfind, hcell⟩

/-- **The last order of a customer** is read: there is none in either of the tables, or the same. -/
theorem lastOrder (h : SameWarehouse w s t) (hw : validWarehouse w) (hd : validDistrict d) (hc : validCustomer c) :
    Observes s t (findLastOrderByCustomer w d c >>= fun p => Op.deref .order p)
      (findLastOrderByCustomer w d c >>= fun p => Op.deref .order p) Eq := by
  -- where the customer has no order there is nothing to read
  have hnone : ∀ t : Tables F, t.store.Linked (schema F) → (∀ p o, t.LiveOrder p o → ¬o.Of w d c) →
      (findLastOrderByCustomer w d c >>= fun p => Op.deref .order p) t = none := by
    intro t ht hno
    rcases findLastOrderByCustomer_cases ht hw hd hc with ⟨p, -, o, hlive, hof, -⟩ | ⟨-, ⟨hrun, -⟩ | ⟨hrun, -⟩⟩
    · exact absurd hof (hno p o hlive)
    · rw [bind_apply, hrun]
      rfl
    · rw [bind_apply, hrun]
      rfl
  rintro _ _ ⟨rfl, rfl⟩
  rcases findLastOrderByCustomer_cases h.left.linked hw hd hc with ⟨p, hfind, hlast⟩ | ⟨hno, -⟩
  · obtain ⟨order, q, hcell, hfind', hcell'⟩ := h.lastOrder_of_isLastOrder hw hd hc hlast
    have hread : ∀ {t : Tables F} {p : Ptr}, t.cell .order p = some order →
        Op.deref .order (some p) t = some (order, t) := fun hcell => by
      rw [deref_apply]
      exact Option.map_eq_some_iff.mpr ⟨order, hcell, rfl⟩
    rw [bind_apply, bind_apply, hfind, hfind', Option.bind_some, Option.bind_some, hread hcell, hread hcell']
    exact Option.Rel.some ⟨rfl, rfl, rfl⟩
  · rw [hnone _ h.left.linked hno, hnone _ h.right.linked]
    · exact Option.Rel.none
    · rintro p o hlive ⟨rfl, rfl, rfl⟩
      have hrow := (h.row (k := .order) rfl).trans (hlive.row h.right.linked).2
      obtain ⟨p', hlive'⟩ := Tables.liveOrder_of_row hrow
      exact hno p' o hlive' ⟨rfl, rfl, rfl⟩

/-- **`internalOrderStatus`** reads one warehouse. -/
theorem internalOrderStatus (h : SameWarehouse w s t) (d c : ℤ) :
    Observes s t (Op.internalOrderStatus (s.lookup .customer (w, d, c)))
      (Op.internalOrderStatus (t.lookup .customer (w, d, c))) Eq := by
  rw [Op.internalOrderStatus, Op.internalOrderStatus]
  refine (h.deref (k := .customer) rfl).bind fun cust cust' => Sim.of_fact ?_
  rintro ⟨rfl, hrow⟩
  obtain ⟨l, hl⟩ := Option.isSome_iff_exists.mp (h.left.keyed.keys hrow)
  obtain ⟨key, hkey, -⟩ := Option.map_eq_some_iff.mp hl
  obtain ⟨⟨hw, hd, hc⟩, -⟩ := makeCustomerKey_eq_some.mp hkey
  have hid : (cust.cWId, cust.cDId, cust.cId) = (w, d, c) := h.left.keyed.ids hrow
  simp only [Prod.mk.injEq] at hid
  rw [hid.1, hid.2.1, hid.2.2, ← bind_assoc]
  refine (h.lastOrder hw hd hc).bind_eq fun o => ?_
  refine (Sim.assert fun _ _ _ => Iff.rfl).bind_eq fun _ => Sim.of_fact fun _ => ?_
  refine Sim.bind_eq (Q := fun _ a b => a = s ∧ b = t) ?_ fun lines => ?_
  · refine Sim.mapM (I := fun _ a b => a = s ∧ b = t) (fun i _ => ?_) _
    rw [orderStatusLine]
    refine (find (Shows.findOrderLine_finds w d o.oId (i + 1))).bind fun p q => Sim.of_fact ?_
    rintro ⟨rfl, rfl⟩
    refine (h.deref (k := .orderLine) rfl).bind fun l l' => Sim.of_fact ?_
    rintro ⟨rfl, -⟩
    exact Sim.pure fun _ _ hP => ⟨rfl, hP⟩
  refine Sim.bind (Q := fun _ _ a b => a = s ∧ b = t) ?_ fun _ _ => Sim.pure fun _ _ hP => ⟨rfl, hP⟩
  refine Sim.forM (I := fun _ a b => a = s ∧ b = t) (fun n _ => ?_) _
  exact (h.missing rfl (Shows.findOrderLine_finds w d o.oId n)).post fun _ _ _ _ hQ => hQ.2

end SameWarehouse

/-! ### Customers by name -/

namespace Tables.Named

variable {w d c : ℤ} {t : Tables F}

/-- What stands in name order is a customer, at the address of its row. -/
theorem exists_row (h : t.Named) {e : Ptr × NameKey} (he : e ∈ t.names) :
    ∃ cust : Customer F, e.2 = nameKey cust ∧ t.lookup .customer (cust.cWId, cust.cDId, cust.cId) = some e.1 ∧
      t.store.cell .customer e.1 = some cust := by
  obtain ⟨hmem, cust, hcell, hkey⟩ := mem_names.mp he
  obtain ⟨key, hidx⟩ := (h.linked e.1).mp hmem
  obtain ⟨cust', hcell', hkey'⟩ := h.wellFormed.customer hidx
  obtain rfl := Option.some.inj (hcell.symm.trans hcell')
  have hprim : primary .customer (cust.cWId, cust.cDId, cust.cId) = some (.tree .customers, key) := by
    rw [primary, hkey']
    rfl
  exact ⟨cust, hkey, (lookup_of_primary (k := .customer) hprim).trans hidx, hcell⟩

/-- Every customer stands in name order. -/
theorem mem_names_of_row (h : t.Named) {p : Ptr} {cust : Customer F} (hp : t.lookup .customer (w, d, c) = some p)
    (hcell : t.store.cell .customer p = some cust) : (p, nameKey cust) ∈ t.names := by
  obtain ⟨l, hl, hidx⟩ := Option.bind_eq_some_iff.mp hp
  obtain ⟨key, -, rfl⟩ := Option.map_eq_some_iff.mp hl
  exact mem_names.mpr ⟨(h.linked p).mpr ⟨key, hidx⟩, cust, hcell, rfl⟩

/-- The names of a district are those of its rows. -/
theorem mem_own_iff (h : t.Named) {k : NameKey} : k ∈ (own w d t.names).map Prod.snd ↔
    ∃ (c : ℤ) (cust : Customer F), t.db.row .customer (w, d, c) = some cust ∧ nameKey cust = k := by
  rw [List.mem_map]
  constructor
  · rintro ⟨e, he, rfl⟩
    obtain ⟨he, hown⟩ := List.mem_filter.mp he
    obtain ⟨cust, hkey, hlook, hcell⟩ := h.exists_row he
    obtain ⟨rfl, rfl⟩ : cust.cWId = w ∧ cust.cDId = d := by
      rw [hkey] at hown
      exact of_decide_eq_true hown
    exact ⟨cust.cId, cust, (row_of_lookup_eq_some hlook).trans hcell, hkey.symm⟩
  · rintro ⟨c, cust, hrow, rfl⟩
    obtain ⟨p, hlook, hcell⟩ := lookup_of_row hrow
    have hid : (cust.cWId, cust.cDId, cust.cId) = (w, d, c) := rowId_of_row h.wellFormed.linked hrow
    simp only [Prod.mk.injEq] at hid
    refine ⟨(p, nameKey cust), List.mem_filter.mpr ⟨h.mem_names_of_row hlook hcell, ?_⟩, rfl⟩
    exact decide_eq_true ⟨hid.1, hid.2.1⟩

end Tables.Named

namespace SameWarehouse

variable {w : ℤ} {s t : Tables F}

/-- **The names of a district** are the same in both tables. -/
theorem own_eq (h : SameWarehouse w s t) (hs : s.Named) (ht : t.Named) (d : ℤ) :
    (own w d s.names).map Prod.snd = (own w d t.names).map Prod.snd := by
  have hsorted : ∀ {t : Tables F}, t.Named → ((own w d t.names).map Prod.snd).Pairwise (· < ·) := fun ht =>
    List.pairwise_map.mpr (List.Pairwise.filter _ ht.increasing)
  refine (hsorted hs).eq_of_mem_iff (hsorted ht) fun {k} => ?_
  rw [hs.mem_own_iff, ht.mem_own_iff]
  exact exists_congr fun c => exists_congr fun cust => and_congr_left' (by rw [h.row rfl])

/-- **`findCustomerByName`** finds the customer with the same id. -/
theorem findCustomerByName (h : SameWarehouse w s t) (hs : s.Named) (ht : t.Named) (d : ℤ) (cLast : List Char) :
    Observes s t (Op.findCustomerByName w d cLast) (Op.findCustomerByName w d cLast) fun p q =>
      ∃ c, p = s.lookup .customer (w, d, c) ∧ q = t.lookup .customer (w, d, c) := by
  rw [findCustomerByName_eq]
  refine (Sim.assert fun _ _ _ => Iff.rfl).bind_eq fun _ => Sim.of_fact fun _ => ?_
  have hby : Observes s t (byName (F := F)) byName fun l l' => l = s.names ∧ l' = t.names := by
    rintro _ _ ⟨rfl, rfl⟩
    rw [byName_apply hs.wellFormed, byName_apply ht.wellFormed]
    exact Option.Rel.some ⟨⟨rfl, rfl⟩, rfl, rfl⟩
  refine hby.bind fun l l' => Sim.of_fact ?_
  rintro ⟨rfl, rfl⟩
  rw [search_own hs.increasing, search_own ht.increasing]
  refine (search_sim (h.own_eq hs ht d)).post ?_
  rintro p q a b ⟨⟨e, he, e', he', rfl, rfl, hkey⟩, hP⟩
  refine ⟨?_, hP⟩
  obtain ⟨hin, hown⟩ := List.mem_filter.mp he
  obtain ⟨hin', -⟩ := List.mem_filter.mp he'
  obtain ⟨cust, hcust, hlook, hcell⟩ := hs.exists_row hin
  obtain ⟨cust', hcust', hlook', hcell'⟩ := ht.exists_row hin'
  obtain ⟨rfl, rfl⟩ : cust.cWId = w ∧ cust.cDId = d := by
    rw [hcust] at hown
    exact of_decide_eq_true hown
  obtain ⟨hw, hd⟩ : cust'.cWId = cust.cWId ∧ cust'.cDId = cust.cDId := by
    rw [hcust, hcust'] at hkey
    exact ⟨(congrArg NameKey.cWId hkey).symm, (congrArg NameKey.cDId hkey).symm⟩
  rw [hw, hd] at hlook'
  -- the row of the second customer is in the first tables too, under a name that one entry has
  have hrow := (h.row (k := .customer) rfl).trans ((Tables.row_of_lookup_eq_some hlook').trans hcell')
  obtain ⟨p, hp, hpcell⟩ := Tables.lookup_of_row hrow
  have hmem := hs.mem_names_of_row hp hpcell
  have hsame : e = (p, nameKey cust') :=
    List.inj_on_of_nodup_map hs.increasing.nodup hin hmem (hkey.trans hcust')
  rw [hsame] at hlook
  have hid := Tables.lookup_unique h.left.linked (k := .customer) hlook hp
  exact ⟨cust'.cId, by rw [hsame]; exact hp.symm, hlook'.symm⟩

/-- **`orderStatus`**, by id. -/
theorem orderStatus (h : SameWarehouse w s t) (d c : ℤ) :
    Observes s t (Op.orderStatus w d c) (Op.orderStatus w d c) Eq := by
  rw [Op.orderStatus]
  refine (find (Shows.findCustomer_finds w d c)).bind fun p q => Sim.of_fact ?_
  rintro ⟨rfl, rfl⟩
  exact h.internalOrderStatus d c

/-- **`orderStatus`**, by last name. -/
theorem orderStatusByName (h : SameWarehouse w s t) (hs : s.Named) (ht : t.Named) (d : ℤ) (cLast : List Char) :
    Observes s t (Op.orderStatusByName w d cLast) (Op.orderStatusByName w d cLast) Eq := by
  rw [Op.orderStatusByName]
  refine (h.findCustomerByName hs ht d cLast).bind fun p q => Sim.of_fact ?_
  rintro ⟨c, rfl, rfl⟩
  exact h.internalOrderStatus d c

/-- **What is found by last name** is where its id says. -/
theorem chooses_of_lookup {t : Tables F} {p : Option Ptr} {d c : ℤ} {cLast : List Char} (ht : t.Sound)
    (hfind : Op.findCustomerByName w d cLast t = some (p, t)) (hp : p = t.lookup .customer (w, d, c)) :
    (CustomerChoice.lastName cLast).Chooses w d t c := by
  subst hp
  obtain ⟨-, p, cust, hp, hcell, hlook⟩ := findCustomerByName_of_sound ht hfind
  have hid := Tables.lookup_unique ht.linked (k := .customer) hlook hp
  exact ⟨p, cust, hp ▸ hfind, hcell, (Prod.mk.inj (Prod.mk.inj hid).2).2⟩

/-- **A customer is chosen**, the same one in both tables, or none is found. -/
theorem chooses (h : SameWarehouse w s t) (hs : s.Named) (ht : t.Named) (d : ℤ) (who : CustomerChoice) :
    (∃ c, who.Chooses w d s c ∧ who.Chooses w d t c) ∨ ∃ cLast, who = .lastName cLast ∧
      Op.findCustomerByName w d cLast s = none ∧ Op.findCustomerByName w d cLast t = none := by
  cases who with
  | id cId => exact Or.inl ⟨cId, rfl, rfl⟩
  | lastName cLast =>
    have hrel := h.findCustomerByName hs ht d cLast s t ⟨rfl, rfl⟩
    cases hfind : Op.findCustomerByName w d cLast s with
    | none =>
      cases hfind' : Op.findCustomerByName w d cLast t with
      | none => exact Or.inr ⟨cLast, rfl, hfind, hfind'⟩
      | some r' =>
        rw [hfind, hfind'] at hrel
        cases hrel
    | some r =>
      cases hfind' : Op.findCustomerByName w d cLast t with
      | none =>
        rw [hfind, hfind'] at hrel
        cases hrel
      | some r' =>
        obtain ⟨p, s₁⟩ := r
        obtain ⟨q, t₁⟩ := r'
        rw [hfind, hfind'] at hrel
        cases hrel with
        | some hr =>
          obtain ⟨⟨c, hp, hq⟩, rfl, rfl⟩ : (∃ c, p = s.lookup .customer (w, d, c) ∧ q = t.lookup .customer (w, d, c)) ∧
            s₁ = s ∧ t₁ = t := hr
          exact Or.inl ⟨c, chooses_of_lookup h.left hfind hp, chooses_of_lookup h.right hfind' hq⟩

end SameWarehouse

end TpccBench
