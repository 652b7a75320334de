import TpccBench.Db.Steps

/-!
# A step, as a district sees it

A step leaves the orders of a district alone, or it places an order there, or it delivers the
oldest one (`TpccBench.Db.Step.at`). What other districts and warehouses do is not seen.
-/

namespace TpccBench

open Prog

variable {F : Type}

/-- A delivery goes through all districts. -/
theorem mem_districtIds {d : ℤ} (h : validDistrict d) : d ∈ Tx.districtIds := by
  obtain ⟨h₁, h₂⟩ : 1 ≤ d ∧ d ≤ 10 := h
  simp only [Tx.districtIds, List.mem_cons, List.not_mem_nil, or_false]
  omega

/-- The orders that a delivery reports of a district. -/
def Txn.taken (w d : ℤ) : Txn F → Reply F → List ℤ
  | .delivery w' _ _, .delivery orders =>
    if w' = w then (orders.filter fun info => info.dId = d).map DeliveryOrderInfo.oId else []
  | _, _ => []

namespace Db

/-- **The same orders** in a district, and the same customers. -/
structure SameOrders (w d : ℤ) (db db' : Db F) : Prop where
  nextOId : (db'.row .district (w, d)).map District.dNextOId = (db.row .district (w, d)).map District.dNextOId
  order (o : ℤ) : db'.row .order (w, d, o) = db.row .order (w, d, o)
  newOrder (o : ℤ) : db'.row .newOrder (w, d, o) = db.row .newOrder (w, d, o)
  orderLine (o i : ℤ) : db'.row .orderLine (w, d, o, i) = db.row .orderLine (w, d, o, i)
  customer (c : ℤ) : (db'.row .customer (w, d, c)).isSome = (db.row .customer (w, d, c)).isSome

variable {w d : ℤ} {db db' db'' : Db F}

theorem SameOrders.refl (db : Db F) : SameOrders w d db db :=
  ⟨rfl, fun _ => rfl, fun _ => rfl, fun _ _ => rfl, fun _ => rfl⟩

theorem SameOrders.trans (h : SameOrders w d db db') (h' : SameOrders w d db' db'') : SameOrders w d db db'' where
  nextOId := h'.nextOId.trans h.nextOId
  order o := (h'.order o).trans (h.order o)
  newOrder o := (h'.newOrder o).trans (h.newOrder o)
  orderLine o i := (h'.orderLine o i).trans (h.orderLine o i)
  customer c := (h'.customer c).trans (h.customer c)

theorem SameOrders.oldest (h : SameOrders w d db db') : db'.oldest w d = db.oldest w d := by
  have hiff : ∀ o, db'.Oldest w d o ↔ db.Oldest w d o := fun o => by
    simp only [Oldest, h.newOrder]
  cases hold : db.oldest w d with
  | none => exact oldest_eq_none.mpr fun o ho => oldest_eq_none.mp hold o ((hiff o).mp ho)
  | some o => exact oldest_eq_some.mpr ((hiff o).mpr (oldest_eq_some.mp hold))

/-- **The same district**: its customers are what they were, too. -/
structure SameDistrict (w d : ℤ) (db db' : Db F) : Prop extends SameOrders w d db db' where
  customers (c : ℤ) : db'.row .customer (w, d, c) = db.row .customer (w, d, c)

theorem SameDistrict.refl (db : Db F) : SameDistrict w d db db := ⟨SameOrders.refl db, fun _ => rfl⟩

theorem SameDistrict.trans (h : SameDistrict w d db db') (h' : SameDistrict w d db' db'') : SameDistrict w d db db'' :=
  ⟨h.toSameOrders.trans h'.toSameOrders, fun c => (h'.customers c).trans (h.customers c)⟩

/-- Taking from the stock is not seen. -/
theorem SameOrders.takeStock (ls : List SupplyLine) : SameOrders w d db (db.takeStock ls) := by
  have hrow : ∀ k : Kind, k ≠ .stock → (db.takeStock ls).row k = db.row k := fun k hk => takeStock_row_of_ne hk ls
  exact ⟨by rw [hrow .district (by decide)], fun _ => by rw [hrow .order (by decide)],
    fun _ => by rw [hrow .newOrder (by decide)], fun _ _ => by rw [hrow .orderLine (by decide)],
    fun _ => by rw [hrow .customer (by decide)]⟩

/-- A customer is written. -/
theorem SameOrders.setCustomer {id : ℤ × ℤ × ℤ} {cust cust' : Customer F} (h : db.row .customer id = some cust) :
    SameOrders w d db (db.setRow .customer id (some cust')) where
  nextOId := by rw [setRow_row_of_ne _ (by decide)]
  order _ := by rw [setRow_row_of_ne _ (by decide)]
  newOrder _ := by rw [setRow_row_of_ne _ (by decide)]
  orderLine _ _ := by rw [setRow_row_of_ne _ (by decide)]
  customer c := by
    rw [setRow_row]
    split
    · next hid => rw [hid, h]; rfl
    · rfl

variable [Money F]

/-- The home part of a payment counts no orders. -/
theorem SameOrders.paid {p : PaidHome F} {w' d' cW cD c : ℤ} {hAmount : F} {now : List Char}
    (hp : p.Valid w' d' now db) : SameOrders w d db (p.apply w' d' cW cD c hAmount db) where
  nextOId := by
    rw [PaidHome.apply_district]
    split
    · next hid => rw [hid, hp.district]; rfl
    · rfl
  order _ := by rw [PaidHome.apply_row_of_ne (by decide)]
  newOrder _ := by rw [PaidHome.apply_row_of_ne (by decide)]
  orderLine _ _ := by rw [PaidHome.apply_row_of_ne (by decide)]
  customer _ := by rw [PaidHome.apply_row_of_ne (by decide)]

/-- An order in another district. -/
theorem SameOrders.placed {w' d' c : ℤ} {items : List NewOrderItem} {p : Placement F w' d' c items} (hp : p.Valid db)
    (hne : (w', d') ≠ (w, d)) : SameOrders w d db (p.apply db) := by
  have hdist : (w, d) ≠ (w', d') := hne.symm
  have hid : ∀ o o' : ℤ, (w, d, o) ≠ (w', d', o') := fun o o' heq => hdist (by simp_all)
  refine ⟨?_, fun o => ?_, fun o => ?_, fun o i => ?_, fun c => ?_⟩
  · rw [Placement.apply_district, if_neg hdist]
  · rw [Placement.apply_order, if_neg (hid _ _)]
  · rw [Placement.apply_newOrder, if_neg (hid _ _)]
  · exact hp.apply_line_of_ne fun j hj heq => hdist (by simp_all)
  · rw [Placement.apply_row_of_ne (by decide)]

/-- A delivery in another district. -/
theorem SameDistrict.shipped {p : Shipment F} {w' d' o carrierId : ℤ} {now : List Char} (hp : p.Valid w' d' o now db)
    (hk : db.Keyed) (hne : (w', d') ≠ (w, d)) : SameDistrict w d db (p.apply w' d' o carrierId db) := by
  have hdist : (w, d) ≠ (w', d') := hne.symm
  have hid : ∀ o o' : ℤ, (w, d, o) ≠ (w', d', o') := fun o o' heq => hdist (by simp_all)
  have hcust : ∀ c, (p.apply w' d' o carrierId db).row .customer (w, d, c) = db.row .customer (w, d, c) := fun c => by
    rw [Shipment.apply_customer, if_neg (hid _ _)]
  refine ⟨⟨?_, fun o => ?_, fun o => ?_, fun o i => ?_, fun c => by rw [hcust]⟩, hcust⟩
  · rw [Shipment.apply_row_of_ne (by decide)]
  · rw [Shipment.apply_order, if_neg (hid _ _)]
  · rw [Shipment.apply_newOrder, if_neg (hid _ _)]
  · exact hp.apply_line_of_ne hk fun j hj heq => hdist (by simp_all)

/-! ### A delivery -/

variable {carrierId : ℤ} {now : List Char} {ds : List ℤ} {orders : List DeliveryOrderInfo}

/-- Only the districts that are gone through are reported. -/
theorem Ships.reported {w' : ℤ} (h : Ships w' carrierId now ds db orders db') : (orders.map DeliveryOrderInfo.dId).Sublist ds := by
  induction h with
  | nil => exact List.Sublist.refl _
  | skip _ _ ih => exact ih.cons _
  | ship _ _ _ ih => exact ih.cons_cons _

/-- What a delivery does not write. -/
theorem Ships.row_of_ne {w' : ℤ} (h : Ships w' carrierId now ds db orders db') {k : Kind}
    (hk : k ∉ [Kind.newOrder, .order, .orderLine, .customer]) : db'.row k = db.row k := by
  induction h with
  | nil => rfl
  | skip _ _ ih => exact ih
  | ship _ _ _ ih => exact ih.trans (Shipment.apply_row_of_ne hk)

theorem Ships.items {w' : ℤ} (h : Ships w' carrierId now ds db orders db') : db'.items = db.items := by
  induction h with
  | nil => rfl
  | skip _ _ ih => exact ih
  | ship _ _ _ ih => exact ih.trans Shipment.apply_items

theorem Ships.history {w' : ℤ} (h : Ships w' carrierId now ds db orders db') : db'.history = db.history := by
  induction h with
  | nil => rfl
  | skip _ _ ih => exact ih
  | ship _ _ _ ih => exact ih.trans Shipment.apply_history

/-- The other districts. -/
theorem Ships.elsewhere {w' : ℤ} (h : Ships w' carrierId now ds db orders db') (hk : db.Keyed)
    (hne : w' = w → d ∉ ds) : SameDistrict w d db db' := by
  induction h with
  | nil => exact SameDistrict.refl _
  | skip _ _ ih => exact ih hk fun hw hd => hne hw (List.mem_cons_of_mem _ hd)
  | @ship d' ds db orders db' o p _ hp _ ih =>
    refine (SameDistrict.shipped hp hk fun heq => ?_).trans
      (ih (hp.keyed hk) fun hw hd => hne hw (List.mem_cons_of_mem _ hd))
    obtain ⟨hw, hd⟩ := Prod.mk.inj heq
    exact hne hw (hd ▸ List.mem_cons_self)

/-- **The district itself**: nothing is to be delivered, or the oldest order is. -/
theorem Ships.at (h : Ships w carrierId now ds db orders db') (hk : db.Keyed) (hnd : ds.Nodup) (hd : d ∈ ds) :
    (db.oldest w d = none ∧ (orders.filter fun info => info.dId = d) = [] ∧ SameDistrict w d db db') ∨
      ∃ (o : ℤ) (p : Shipment F) (db₁ : Db F), db.oldest w d = some o ∧
        (orders.filter fun info => info.dId = d) = [⟨d, o⟩] ∧ SameDistrict w d db db₁ ∧ db₁.Keyed ∧
        p.Valid w d o now db₁ ∧ SameDistrict w d (p.apply w d o carrierId db₁) db' := by
  induction h with
  | nil => exact absurd hd List.not_mem_nil
  | @skip d' ds db orders db' hold hrest ih =>
    obtain ⟨hd', hnd⟩ := List.nodup_cons.mp hnd
    rcases List.mem_cons.mp hd with rfl | hd
    · refine Or.inl ⟨hold, List.filter_eq_nil_iff.mpr fun info hinfo heq => hd' ?_, hrest.elsewhere hk fun _ => hd'⟩
      exact of_decide_eq_true heq ▸ hrest.reported.subset (List.mem_map_of_mem hinfo)
    · exact ih hk hnd hd
  | @ship d' ds db orders db' o p hold hp hrest ih =>
    obtain ⟨hd', hnd⟩ := List.nodup_cons.mp hnd
    rcases List.mem_cons.mp hd with rfl | hd
    · refine Or.inr ⟨o, p, db, hold, ?_, SameDistrict.refl _, hk, hp, hrest.elsewhere (hp.keyed hk) fun _ => hd'⟩
      have hnil : (orders.filter fun info => info.dId = d) = [] :=
        List.filter_eq_nil_iff.mpr fun info hinfo heq =>
          hd' (of_decide_eq_true heq ▸ hrest.reported.subset (List.mem_map_of_mem hinfo))
      rw [List.filter_cons_of_pos (by simp), hnil]
    · -- the other district is not seen
      have hne : d' ≠ d := fun heq => hd' (heq ▸ hd)
      have hsame : SameDistrict w d db (p.apply w d' o carrierId db) :=
        SameDistrict.shipped hp hk fun heq => hne (Prod.mk.inj heq).2
      rw [List.filter_cons_of_neg (by simpa using hne), ← hsame.toSameOrders.oldest]
      rcases ih (hp.keyed hk) hnd hd with ⟨hnone, hnil, hsame'⟩ | ⟨o', p', db₁, hold', hone, hsame', hk₁, hp', hafter⟩
      · exact Or.inl ⟨hnone, hnil, hsame.trans hsame'⟩
      · exact Or.inr ⟨o', p', db₁, hold', hone, hsame.trans hsame', hk₁, hp', hafter⟩

/-! ### A step -/

/-- **What a district sees of a step.** -/
inductive DistrictStep (w d : ℤ) (x : Txn F) (r : Reply F) (db db' : Db F) : Prop
  | quiet : x.taken w d r = [] → SameOrders w d db db' → DistrictStep w d x r db db'
  | place {c items} {p : Placement F w d c items} : x.Places w d c items → r.committed = true → x.taken w d r = [] →
    p.Valid db → SameOrders w d (p.apply db) db' → DistrictStep w d x r db db'
  | ship {carrierId now o} {p : Shipment F} {db₁} : x = .delivery w carrierId now → x.taken w d r = [o] →
    db.oldest w d = some o → SameOrders w d db db₁ → db₁.Keyed → p.Valid w d o now db₁ →
    SameOrders w d (p.apply w d o carrierId db₁) db' → DistrictStep w d x r db db'

theorem Txn.Places.taken {w' d' c : ℤ} {items : List NewOrderItem} {x : Txn F} (h : x.Places w' d' c items)
    (r : Reply F) : x.taken w d r = [] := by
  cases h <;> rfl

/-- **Every step** is one of these for every district. -/
theorem Step.at {x : Txn F} {r : Reply F} (h : Step x r db db') (hk : db.Keyed) (w : ℤ) {d : ℤ}
    (hd : d ∈ Tx.districtIds) : DistrictStep w d x r db db' := by
  cases h with
  | refuse hx hr => exact .quiet (Txn.Places.taken hx r) (SameOrders.refl _)
  | @place _ _ w' d' c items _ ls p hx hr hp =>
    by_cases heq : (w', d') = (w, d)
    · obtain ⟨rfl, rfl⟩ := Prod.mk.inj heq
      exact .place hx hr (Txn.Places.taken hx r) hp (SameOrders.takeStock ls)
    · exact .quiet (Txn.Places.taken hx r) ((SameOrders.placed hp heq).trans (SameOrders.takeStock ls))
  | take => exact .quiet rfl (SameOrders.takeStock _)
  | @pay _ _ w' d' cW cD c hAmount now _ cust cData p hx hp hcust =>
    have htaken : x.taken w d r = [] := by cases hx <;> rfl
    exact .quiet htaken ((SameOrders.paid hp).trans
      (SameOrders.setCustomer ((PaidHome.apply_customer _).trans hcust)))
  | payHome hp => exact .quiet rfl (SameOrders.paid hp)
  | payRemote hx hcust =>
    have htaken : x.taken w d r = [] := by cases hx <;> rfl
    exact .quiet htaken (SameOrders.setCustomer hcust)
  | @deliver w' carrierId now orders _ _ hships =>
    by_cases hw : w' = w
    · subst hw
      rcases hships.at hk (by decide) hd with ⟨-, hnil, hsame⟩ | ⟨o, p, db₁, hold, hone, hsame, hk₁, hp, hafter⟩
      · exact .quiet (by rw [Txn.taken, if_pos rfl, hnil]; rfl) hsame.toSameOrders
      · exact .ship rfl (by rw [Txn.taken, if_pos rfl, hone]; rfl) hold hsame.toSameOrders hk₁ hp
          hafter.toSameOrders
    · exact .quiet (by rw [Txn.taken, if_neg hw]) (hships.elsewhere hk fun heq => absurd heq hw).toSameOrders

end Db

end TpccBench
