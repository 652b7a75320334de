import TpccBench.Db.Insertions
import TpccBench.Load.Original

/-!
# What a load inserts

A load that has completed has inserted a list of rows (`TpccBench.Emits`), and what these are is
said from the inside out: an order with its lines, a district with its customers and its orders,
a warehouse with its stock and its districts, and all of it (`TpccBench.LoadData`). Everything
else about a loaded database is read off this list.
-/

namespace TpccBench

open Prog

variable {F : Type}

/-! ### Parts of a load -/

theorem insertAll_append (is is' : List (Insertion F)) (t : Tables F) :
    insertAll (is ++ is') t = (insertAll is t).bind fun r => insertAll is' r.2 := forM_append_apply _ _ _ _

/-- **What a part of a load inserts** from some number on: its numbers are drawn, which does not
depend on the tables and does not fail if the generator is fair, and then its rows are inserted. -/
def EmitsAt {α : Type} (fair : Prop) (x : Gen F α) (n : ℕ) (Q : α → ℕ → List (Insertion F) → Prop) : Prop :=
  (¬fair ∧ ∀ t, x ⟨t, n⟩ = none) ∨
    ∃ a n' is, Q a n' is ∧ ∀ t, x ⟨t, n⟩ = (insertAll is t).map fun r => (a, ⟨r.2, n'⟩)

/-- **What a part of a load inserts**, from any number on. -/
def Emits {α : Type} (fair : Prop) (x : Gen F α) (Q : α → List (Insertion F) → Prop) : Prop :=
  ∀ n, (¬fair ∧ ∀ t, x ⟨t, n⟩ = none) ∨
    ∃ a n' is, Q a is ∧ ∀ t, x ⟨t, n⟩ = (insertAll is t).map fun r => (a, ⟨r.2, n'⟩)

/-- The turns of a loop, each of which starts at the number the one before has stopped at. -/
def Chained {ι A : Type} (f : ι → A × ℕ × ℕ) : ℕ → List ι → ℕ → Prop
  | n, [], n' => n' = n
  | n, i :: l, n' => (f i).2.1 = n ∧ Chained f (f i).2.2 l n'

theorem Chained.congr {ι A : Type} {f f' : ι → A × ℕ × ℕ} {l : List ι} {n n' : ℕ} (h : Chained f n l n')
    (hf : ∀ i ∈ l, f' i = f i) : Chained f' n l n' := by
  induction l generalizing n with
  | nil => exact h
  | cons i l ih =>
    obtain ⟨hi, hl⟩ := List.forall_mem_cons.mp hf
    rw [Chained, hi]
    exact ⟨h.1, ih h.2 hl⟩

/-- **Where the turns start**, when each draws some numbers but not many. -/
theorem Chained.bounds {ι A : Type} {f : ι → A × ℕ × ℕ} {k : ℕ} {l : List ι} {n n' : ℕ}
    (hf : ∀ i ∈ l, (f i).2.1 < (f i).2.2 ∧ (f i).2.2 ≤ (f i).2.1 + k) (h : Chained f n l n') :
    (n ≤ n' ∧ n' ≤ n + k * l.length) ∧ (∀ i ∈ l, n ≤ (f i).2.1 ∧ (f i).2.1 < n') ∧
      l.Pairwise fun i j => (f i).2.1 < (f j).2.1 := by
  induction l generalizing n with
  | nil =>
    obtain rfl : n' = n := h
    exact ⟨⟨le_rfl, le_rfl⟩, fun _ hi => absurd hi List.not_mem_nil, List.Pairwise.nil⟩
  | cons i l ih =>
    obtain ⟨hi, hl⟩ := List.forall_mem_cons.mp hf
    obtain ⟨rfl, h⟩ := h
    obtain ⟨⟨h₁, h₂⟩, hin, hpair⟩ := ih hl h
    refine ⟨⟨by omega, ?_⟩, List.forall_mem_cons.mpr ⟨by omega, fun j hj => ?_⟩, List.pairwise_cons.mpr ⟨?_, hpair⟩⟩
    · rw [List.length_cons, Nat.mul_succ]
      omega
    · have := hin j hj
      omega
    · intro j hj
      have := hin j hj
      omega

namespace EmitsAt

variable {α β ι A : Type} {fair : Prop} {x : Gen F α} {n : ℕ} {Q : α → ℕ → List (Insertion F) → Prop}

theorem mono {Q' : α → ℕ → List (Insertion F) → Prop} (h : EmitsAt fair x n Q)
    (hQ : ∀ a n' is, Q a n' is → Q' a n' is) : EmitsAt fair x n Q' :=
  h.imp_right fun ⟨a, n', is, hq, hx⟩ => ⟨a, n', is, hQ a n' is hq, hx⟩

protected theorem pure {a : α} (h : Q a n []) : EmitsAt fair (Pure.pure a) n Q :=
  Or.inr ⟨a, n, [], h, fun _ => rfl⟩

/-- **Composition.** -/
protected theorem bind {f : α → Gen F β} {R : β → ℕ → List (Insertion F) → Prop} (hx : EmitsAt fair x n Q)
    (hf : ∀ a n' is, Q a n' is → EmitsAt fair (f a) n' fun b n'' is' => R b n'' (is ++ is')) :
    EmitsAt fair (x >>= f) n R := by
  rcases hx with ⟨hunfair, hnone⟩ | ⟨a, n₁, is, hq, hrun⟩
  · exact Or.inl ⟨hunfair, fun t => by rw [bind_apply, hnone, Option.bind_none]⟩
  · have hbind : ∀ t, (x >>= f) ⟨t, n⟩ = (insertAll is t).bind fun r => f a ⟨r.2, n₁⟩ := fun t => by
      rw [bind_apply, hrun, Option.bind_map]
      rfl
    rcases hf a n₁ is hq with ⟨hunfair, hnone⟩ | ⟨b, n₂, is', hr, hrun'⟩
    · refine Or.inl ⟨hunfair, fun t => ?_⟩
      rw [hbind, Option.bind_eq_none_iff]
      exact fun r _ => hnone r.2
    · refine Or.inr ⟨b, n₂, is ++ is', hr, fun t => ?_⟩
      rw [hbind, insertAll_append, Option.map_bind]
      exact congrArg _ (funext fun r => hrun' r.2)

/-- Numbers are drawn first. -/
theorem draws {y : Rx β} {J : β → Prop} {f : β → Gen F α} (hy : y.Yields fair J)
    (hf : ∀ b n', y n = some (b, n') → J b → EmitsAt fair (f b) n' Q) : EmitsAt fair (y.gen >>= f) n Q := by
  refine EmitsAt.bind (Q := fun b n' is => y n = some (b, n') ∧ J b ∧ is = []) ?_ ?_
  · cases hrun : y n with
    | none =>
      refine Or.inl ⟨fun hfair => ?_, fun t => by rw [Rx.gen, hrun]; rfl⟩
      exact absurd (hy.ends hfair n) (by simp [hrun])
    | some r => exact Or.inr ⟨r.1, r.2, [], ⟨rfl, hy.result hrun, rfl⟩, fun t => by rw [Rx.gen, hrun]; rfl⟩
  · rintro b n' is ⟨hrun, hb, rfl⟩
    exact hf b n' hrun hb

/-- A row is inserted. -/
theorem insertion {i : Insertion F} : EmitsAt fair i.gen n fun _ n' is => n' = n ∧ is = [i] := by
  refine Or.inr ⟨(), n, [i], ⟨rfl, rfl⟩, fun t => ?_⟩
  rw [insertAll, forM_cons_apply, Insertion.gen]
  cases i.exec t with
  | none => rfl
  | some r => rfl

/-- A row is inserted first. -/
theorem inserts {i : Insertion F} {f : Gen F α} (hf : EmitsAt fair f n fun a n' is => Q a n' (i :: is)) :
    EmitsAt fair (i.gen >>= fun _ => f) n Q := by
  refine EmitsAt.bind insertion ?_
  rintro - n' is ⟨rfl, rfl⟩
  exact hf

/-- **A loop**: what its turns insert, one after the other. -/
theorem forM [Inhabited A] [DecidableEq ι] {x : ι → Gen F Unit} {P : ι → A × ℕ × ℕ → Prop}
    {shape : ι → A → List (Insertion F)} {l : List ι} (hnd : l.Nodup)
    (h : ∀ i ∈ l, ∀ n, EmitsAt fair (x i) n fun _ n' is => ∃ a, P i (a, n, n') ∧ is = shape i a) (n : ℕ) :
    EmitsAt fair (l.forM x) n fun _ n' is => ∃ f : ι → A × ℕ × ℕ,
      (∀ i ∈ l, P i (f i)) ∧ Chained f n l n' ∧ is = l.flatMap fun i => shape i (f i).1 := by
  induction l generalizing n with
  | nil => exact EmitsAt.pure ⟨fun _ => default, fun _ h => absurd h List.not_mem_nil, rfl, rfl⟩
  | cons i l ih =>
    obtain ⟨hi, hnd⟩ := List.nodup_cons.mp hnd
    obtain ⟨hx, hl⟩ := List.forall_mem_cons.mp h
    show EmitsAt fair (x i >>= fun _ => l.forM x) n _
    refine (hx n).bind ?_
    rintro - n₁ is ⟨a, ha, rfl⟩
    refine (ih hnd hl n₁).mono ?_
    rintro - n₂ is ⟨f, hf, hchain, rfl⟩
    -- the other turns do not see what is chosen for this one
    have hne : ∀ j ∈ l, Function.update f i (a, n, n₁) j = f j := fun j hj =>
      Function.update_of_ne (by rintro rfl; exact hi hj) _ _
    refine ⟨Function.update f i (a, n, n₁), List.forall_mem_cons.mpr ⟨?_, fun j hj => ?_⟩, ?_, ?_⟩
    · rwa [Function.update_self]
    · rw [hne j hj]
      exact hf j hj
    · rw [Chained, Function.update_self]
      exact ⟨rfl, hchain.congr hne⟩
    · rw [List.flatMap_cons, Function.update_self]
      refine congrArg (shape i a ++ ·) (List.flatMap_congr fun j hj => ?_)
      rw [hne j hj]

end EmitsAt

namespace Emits

variable {α β ι A : Type} {fair : Prop} {x : Gen F α} {Q : α → List (Insertion F) → Prop}

theorem mono {Q' : α → List (Insertion F) → Prop} (h : Emits fair x Q) (hQ : ∀ a is, Q a is → Q' a is) :
    Emits fair x Q' := fun n => (h n).imp_right fun ⟨a, n', is, hq, hx⟩ => ⟨a, n', is, hQ a is hq, hx⟩

/-- A part that has ended has inserted its rows. -/
theorem of_eq_some (h : Emits fair x Q) {l l' : Load F} {a : α} (hx : x l = some (a, l')) :
    ∃ is, Q a is ∧ insertAll is l.tables = some ((), l'.tables) := by
  rcases h l.drawn with ⟨-, hnone⟩ | ⟨b, n', is, hq, hrun⟩
  · exact absurd (hx.symm.trans (hnone l.tables)) (by simp)
  · obtain ⟨⟨_, t⟩, ht, heq⟩ := Option.map_eq_some_iff.mp ((hrun l.tables).symm.trans hx)
    obtain ⟨rfl, rfl⟩ := Prod.mk.inj heq
    exact ⟨is, hq, ht⟩

protected theorem pure {a : α} (h : Q a []) : Emits fair (Pure.pure a) Q := fun _ =>
  EmitsAt.pure (Q := fun a _ is => Q a is) h

/-- **Composition.** -/
protected theorem bind {f : α → Gen F β} {R : β → List (Insertion F) → Prop} (hx : Emits fair x Q)
    (hf : ∀ a is, Q a is → Emits fair (f a) fun b is' => R b (is ++ is')) : Emits fair (x >>= f) R := fun n =>
  EmitsAt.bind (Q := fun a _ is => Q a is) (R := fun b _ is => R b is) (hx n) fun a n' is h => hf a is h n'

/-- Numbers are drawn first. -/
theorem draws {y : Rx β} {J : β → Prop} {f : β → Gen F α} (hy : y.Yields fair J)
    (hf : ∀ b, J b → Emits fair (f b) Q) : Emits fair (y.gen >>= f) Q := fun _ =>
  EmitsAt.draws (Q := fun a _ is => Q a is) hy fun b n' _ hb => hf b hb n'

/-- A row is inserted. -/
theorem insertion {i : Insertion F} : Emits fair i.gen fun _ is => is = [i] := fun _ =>
  EmitsAt.insertion.mono fun _ _ _ h => h.2

/-- A row is inserted first. -/
theorem inserts {i : Insertion F} {f : Gen F α} (hf : Emits fair f fun a is => Q a (i :: is)) :
    Emits fair (i.gen >>= fun _ => f) Q := fun n => EmitsAt.inserts (Q := fun a _ is => Q a is) (hf n)

theorem lifts {o : Option β} {f : β → Gen F α} (ho : fair → o.isSome)
    (hf : ∀ b, o = some b → Emits fair (f b) Q) : Emits fair ((liftM o : Gen F β) >>= f) Q := by
  cases o with
  | none => exact fun n => Or.inl ⟨fun hfair => absurd (ho hfair) (by simp), fun t => rfl⟩
  | some b => exact hf b rfl

/-- **A loop**: what its turns insert, one after the other. -/
theorem forM [Inhabited A] [DecidableEq ι] {x : ι → Gen F Unit} {P : ι → A → Prop}
    {shape : ι → A → List (Insertion F)} {l : List ι} (hnd : l.Nodup)
    (h : ∀ i ∈ l, Emits fair (x i) fun _ is => ∃ a, P i a ∧ is = shape i a) :
    Emits fair (l.forM x) fun _ is => ∃ f : ι → A, (∀ i ∈ l, P i (f i)) ∧ is = l.flatMap fun i => shape i (f i) :=
  fun n => (EmitsAt.forM (P := fun i a => P i a.1) hnd (fun i hi n => h i hi n) n).mono
    fun _ _ _ ⟨f, hf, _, his⟩ => ⟨fun i => (f i).1, hf, his⟩

end Emits

/-! ### The ids -/

theorem mem_idsTo {n : ℕ} {i : ℤ} : i ∈ idsTo n ↔ 1 ≤ i ∧ i ≤ n := by
  rw [idsTo, List.mem_map]
  constructor
  · rintro ⟨j, hj, rfl⟩
    have := List.mem_range.mp hj
    omega
  · intro h
    exact ⟨(i - 1).toNat, List.mem_range.mpr (by omega), by omega⟩

@[simp] theorem length_idsTo (n : ℕ) : (idsTo n).length = n := by
  rw [idsTo, List.length_map, List.length_range]

theorem nodup_idsTo (n : ℕ) : (idsTo n).Nodup :=
  List.Nodup.map (fun i j h => by simpa using h) List.nodup_range

/-! ### The rows -/

/-- An order and its lines, by their numbers. -/
structure OrderData (F : Type) where
  order : Order
  line : ℤ → OrderLine F

/-- A district with its customers and orders, by their ids. -/
structure DistrictData (F : Type) where
  district : District F
  customer : ℤ → Customer F
  history : ℤ → History F
  permutation : List ℤ
  order : ℤ → OrderData F

/-- A warehouse with its stock and districts, by their ids. -/
structure WarehouseData (F : Type) where
  stock : ℤ → Stock
  warehouse : Warehouse F
  district : ℤ → DistrictData F

/-- The items and the warehouses, by their ids. -/
structure LoadData (F : Type) where
  item : ℤ → Item F
  warehouse : ℤ → WarehouseData F

section Inhabited

variable [Money F]

instance : Inhabited Stock := ⟨⟨0, 0, 0, 0, 0, 0, fun _ => .empty, .empty⟩⟩

instance : Inhabited (Item F) := ⟨⟨0, 0, 0, .empty, .empty⟩⟩

instance : Inhabited (OrderLine F) := ⟨⟨0, 0, 0, 0, 0, 0, 0, 0, .empty, .empty⟩⟩

instance : Inhabited (OrderData F) := ⟨⟨⟨0, 0, 0, 0, 0, 0, 0, .empty⟩, default⟩⟩

instance : Inhabited (Customer F) :=
  ⟨⟨0, 0, 0, 0, 0, 0, 0, 0, 0, .empty, .empty, .empty, .zero, .empty, .empty, .empty, .empty⟩⟩

instance : Inhabited (History F) := ⟨⟨0, 0, 0, 0, 0, 0, .empty, .empty⟩⟩

instance : Inhabited (DistrictData F) :=
  ⟨⟨⟨0, 0, 0, 0, 0, .empty, .zero⟩, default, default, [], default⟩⟩

instance : Inhabited (WarehouseData F) := ⟨⟨default, ⟨0, 0, 0, .empty, .zero⟩, default⟩⟩

end Inhabited

namespace TPCCGenerator

variable (g : TPCCGenerator)

/-- The last orders of a district are new. -/
def IsNew (oId : ℤ) : Prop := (g.customersPerDistrict : ℤ) - g.newOrdersPerDistrict < oId

instance (oId : ℤ) : Decidable (g.IsNew oId) := inferInstanceAs (Decidable (_ < _))

/-- A stock row as it is generated. -/
structure MakesStock (wId iId : ℤ) (s : Stock) : Prop where
  id : (s.sWId, s.sIId) = (wId, iId)
  quantity : 10 ≤ s.sQuantity ∧ s.sQuantity ≤ 100
  dist (i : Fin 10) : (s.sDist i).chars.length = 24
  data : 26 ≤ s.sData.chars.length

section Makes

variable [Money F]

/-- A customer as it is generated: the first thousand have the first thousand names. -/
structure MakesCustomer (wId dId cId : ℤ) (c : Customer F) : Prop where
  id : rowId .customer c = (wId, dId, cId)
  balance : c.cBalance = ((-10 : ℤ) : F)
  ytdPayment : c.cYtdPayment = ((10 : ℤ) : F)
  paymentCnt : c.cPaymentCnt = 1
  deliveryCnt : c.cDeliveryCnt = 0
  last : ∃ num, makeLastName num = some c.cLast ∧ (cId ≤ 1000 → num = cId - 1)

/-- A history row as it is generated. -/
structure MakesHistory (wId dId cId : ℤ) (h : History F) : Prop where
  paidAt : (h.hWId, h.hDId) = (wId, dId)
  customer : (h.hCWId, h.hCDId, h.hCId) = (wId, dId, cId)
  amount : h.hAmount = ((10 : ℤ) : F)

/-- An order line as it is generated: delivered, for nothing, where the order is not new. -/
structure MakesLine (wId dId oId number : ℤ) (line : OrderLine F) : Prop where
  id : rowId .orderLine line = (wId, dId, oId, number)
  item : ∃ n, line.olIId = g.random.number n 1 100000
  supply : line.olSupplyWId = wId
  new : g.IsNew oId → line.olDeliveryD.chars = []
  old : ¬g.IsNew oId → line.olDeliveryD = g.now ∧ line.olAmount = 0

/-- An order as it is generated. -/
structure MakesOrder (wId dId oId : ℤ) (x : OrderData F) : Prop where
  id : (x.order.oWId, x.order.oDId, x.order.oId) = (wId, dId, oId)
  carrier : x.order.oCarrierId = Order.nullCarrierId ↔ g.IsNew oId
  olCnt : 5 ≤ x.order.oOlCnt ∧ x.order.oOlCnt ≤ 15
  line (number : ℤ) : 1 ≤ number → number ≤ x.order.oOlCnt → g.MakesLine wId dId oId number (x.line number)

/-- A district as it is generated. -/
structure MakesDistrict (wId dId : ℤ) (x : DistrictData F) : Prop where
  id : rowId .district x.district = (wId, dId)
  ytd : x.district.dYtd = ((30000 : ℤ) : F)
  nextOId : x.district.dNextOId = g.customersPerDistrict + 1
  customer (cId : ℤ) : 1 ≤ cId → cId ≤ g.customersPerDistrict → MakesCustomer wId dId cId (x.customer cId)
  history (cId : ℤ) : 1 ≤ cId → cId ≤ g.customersPerDistrict → MakesHistory wId dId cId (x.history cId)
  first : ∃ (n : ℕ) (start : ℤ → ℕ), (∀ c ∈ idsTo g.customersPerDistrict,
      (n ≤ start c ∧ start c < n + 628 * g.customersPerDistrict) ∧
        g.random.Spells (start c + 2) (x.customer c).cFirst.chars) ∧
    ((idsTo g.customersPerDistrict).map start).Nodup
  permutation : x.permutation.Perm (idsTo g.customersPerDistrict)
  order (oId : ℤ) : 1 ≤ oId → oId ≤ g.customersPerDistrict → g.MakesOrder wId dId oId (x.order oId) ∧
    x.permutation[(oId - 1).toNat]? = some (x.order oId).order.oCId

/-- A warehouse as it is generated. -/
structure MakesWarehouse (wId : ℤ) (x : WarehouseData F) : Prop where
  stock (iId : ℤ) : 1 ≤ iId → iId ≤ g.numItems → MakesStock wId iId (x.stock iId)
  id : rowId .warehouse x.warehouse = wId
  ytd : x.warehouse.wYtd = ((300000 : ℤ) : F)
  district (dId : ℤ) : 1 ≤ dId → dId ≤ g.districtsPerWarehouse → g.MakesDistrict wId dId (x.district dId)

/-- A load. -/
structure Makes (warehouses : ℕ) (x : LoadData F) : Prop where
  item (iId : ℤ) : 1 ≤ iId → iId ≤ g.numItems → (x.item iId).iId = iId
  warehouse (wId : ℤ) : 1 ≤ wId → wId ≤ warehouses → g.MakesWarehouse wId (x.warehouse wId)
  warehouses_le : 0 < warehouses → warehouses ≤ 100

end Makes

/-! ### In the order of the load -/

def orderRows (wId dId oId : ℤ) (x : OrderData F) : List (Insertion F) :=
  .order x.order :: (idsTo x.order.oOlCnt.toNat).map (fun number => .orderLine (x.line number)) ++
    if g.IsNew oId then [.newOrder wId dId oId] else []

def districtRows (wId dId : ℤ) (x : DistrictData F) : List (Insertion F) :=
  .district x.district ::
    (idsTo g.customersPerDistrict).flatMap (fun cId => [.customer (x.customer cId), .history (x.history cId)]) ++
    (idsTo g.customersPerDistrict).flatMap fun oId => g.orderRows wId dId oId (x.order oId)

def warehouseRows (wId : ℤ) (x : WarehouseData F) : List (Insertion F) :=
  (idsTo g.numItems).map (fun iId => .stock (x.stock iId)) ++
    .warehouse x.warehouse :: (idsTo g.districtsPerWarehouse).flatMap fun dId => g.districtRows wId dId (x.district dId)

def rows (warehouses : ℕ) (x : LoadData F) : List (Insertion F) :=
  (idsTo g.numItems).map (fun iId => .item (x.item iId)) ++
    (idsTo warehouses).flatMap fun wId => g.warehouseRows wId (x.warehouse wId)

/-! ### What is drawn for them -/

variable {fair : Prop} {tries : ℕ}

/-- **A generator that is fair** enough for a load to end: a new id is found within the tries,
and the constant for last names is not negative, and small enough. -/
structure Fair (tries : ℕ) : Prop where
  cLast : 0 ≤ g.random.cValues.cLast ∧ g.random.SumsFit 255 0 (min 999 (g.customersPerDistrict - 1))
  items : g.random.Covers tries 1 g.numItems
  customers : g.random.Covers tries 1 g.customersPerDistrict

/-- Once round is enough. -/
theorem cycling_fair {top : ℤ} {numItems customers : ℕ} {hitems : 1 ≤ numItems ∧ numItems ≤ 100000}
    {hcustomers : 1 ≤ customers ∧ customers ≤ 3000} (hi : numItems ≠ top) (hc : customers ≠ top) :
    (cycling top numItems customers hitems hcustomers).Fair (numItems + customers) where
  cLast := ⟨le_rfl, RandomGenerator.sumsFit_of_le (c := 0) (e := 10) _ rfl (by decide) (by omega) (by decide)⟩
  items := RandomGenerator.cycle_covers hi (by push_cast; omega)
  customers := RandomGenerator.cycle_covers hc (by push_cast; omega)

theorem drawNew_isSome {random : RandomGenerator} {lower upper : ℤ} {rows : List ℤ} {n : ℕ}
    (h : ∃ m < tries, random.number (n + m) lower upper ∉ rows) :
    (drawNew random lower upper rows tries n).isSome := by
  induction tries generalizing n with
  | zero => exact absurd h (by simp)
  | succ tries ih =>
    obtain ⟨m, hm, hnew⟩ := h
    rw [drawNew, bind_apply, RandomGenerator.draw, Option.bind_some]
    dsimp only
    split
    · next hold =>
      -- it was not the first try
      cases m with
      | zero => exact absurd hold hnew
      | succ m => exact ih ⟨m, by omega, by rwa [Nat.add_right_comm n 1 m]⟩
    · rfl

/-- What is drawn is new. -/
theorem drawNew_eq_some {random : RandomGenerator} {lower upper : ℤ} (h : lower ≤ upper) {rows : List ℤ}
    {n n' : ℕ} {index : ℤ} (hrun : drawNew random lower upper rows tries n = some (index, n')) :
    index ∉ rows ∧ lower ≤ index ∧ index ≤ upper := by
  induction tries generalizing n with
  | zero => exact absurd hrun (by simp [drawNew, failure, StateT.failure])
  | succ tries ih =>
    rw [drawNew] at hrun
    obtain ⟨i, n₁, hdraw, hrun⟩ := bind_eq_some hrun
    split at hrun
    · exact ih hrun
    · next hnew =>
      obtain ⟨rfl, rfl⟩ := Prod.mk.inj (Option.some.inj hrun)
      exact ⟨hnew, (random.draw_yields h : Rx.Yields False _ _).result hdraw⟩

/-- So many of the ids. -/
structure Selected (n numUnique : ℕ) (rows : List ℤ) : Prop where
  nodup : rows.Nodup
  ids (i : ℤ) : i ∈ rows → i ∈ idsTo n
  length : rows.length = numUnique

/-- **A few of the ids** are selected, each drawn until it is new. -/
theorem selectUniqueIds_yields {random : RandomGenerator} {numUnique n : ℕ} (h : numUnique ≤ n)
    (hfair : fair → random.Covers tries 1 n) :
    (selectUniqueIds random tries numUnique 1 n).Yields fair (Selected n numUnique) := by
  rw [selectUniqueIds]
  refine Rx.Yields.bind (J := Selected n numUnique) ?_ fun rows hrows =>
    (Rx.Yields.assert fun _ => hrows.length).bind fun _ _ => Rx.Yields.pure hrows
  refine Rx.Yields.foldlM_range (I := Selected n) (fun i hi rows hrows => ?_)
    ⟨List.nodup_nil, fun _ h => absurd h List.not_mem_nil, rfl⟩
  have hn : (1 : ℤ) ≤ n := by omega
  refine Rx.Yields.bind (J := fun index => index ∉ rows ∧ 1 ≤ index ∧ index ≤ n)
    ⟨fun hrun => drawNew_eq_some hn hrun, fun hf m => ?_⟩ fun index ⟨hnew, hindex⟩ => Rx.Yields.pure
      ⟨List.nodup_cons.mpr ⟨hnew, hrows.nodup⟩,
        List.forall_mem_cons.mpr ⟨mem_idsTo.mpr hindex, hrows.ids⟩, by rw [List.length_cons, hrows.length]⟩
  -- the rows are not all the ids yet
  obtain ⟨id, hid, hnew⟩ : ∃ id ∈ idsTo n, id ∉ rows := by
    by_contra hall
    push Not at hall
    have hle := ((nodup_idsTo n).subperm hall).length_le
    rw [length_idsTo, hrows.length] at hle
    omega
  obtain ⟨h₁, h₂⟩ := mem_idsTo.mp hid
  obtain ⟨k, hk, hnum⟩ := hfair hf m id h₁ h₂
  exact drawNew_isSome ⟨k, hk, by rwa [hnum]⟩

theorem makeAddress_yields : (makeAddress g.random).Yields fair fun _ => True := by
  rw [makeAddress]
  refine (g.random.astring_yields (by decide) (by decide) le_rfl).bind fun street1 _ => ?_
  refine (g.random.astring_yields (by decide) (by decide) le_rfl).bind fun street2 _ => ?_
  refine (g.random.astring_yields (by decide) (by decide) le_rfl).bind fun city _ => ?_
  refine (g.random.astring_yields (by decide) le_rfl le_rfl).bind fun state _ => ?_
  refine Rx.Yields.bind (J := fun _ => True) ?_ fun zip _ => Rx.Yields.pure trivial
  rw [makeZip]
  refine (g.random.nstring_yields (by decide) le_rfl (by decide)).bind fun zip hzip => ?_
  refine (Rx.Yields.lift fun _ => CString.strcpy_isSome ?_).drop
  have h5 : "11111".toList.length = 5 := by decide
  rw [List.length_append, List.length_take]
  omega

theorem generateStock_yields {iId : ℤ} (hid : iId ∈ idsTo g.numItems) (wId : ℤ) (original : Bool) :
    (g.generateStock iId wId original).Yields fair fun s =>
      MakesStock wId iId s ∧ DataString (original = true) s.sData.chars := by
  rw [generateStock]
  refine (Rx.Yields.assert fun _ => mem_idsTo.mp hid).bind fun _ _ => ?_
  refine (g.random.draw_yields (by decide)).bind fun sQuantity hq => ?_
  refine (Rx.Yields.mapM fun _ _ => g.random.astring_yields (by decide) le_rfl le_rfl).bind fun sDist hdist => ?_
  refine astring_data.bind fun sData hdata => ?_
  refine (original_yields original hdata).bind fun sData' hdata' => ?_
  refine Rx.Yields.pure ⟨⟨rfl, hq, fun i => ?_, hdata'.length.1⟩, hdata'⟩
  have hi : i.val < sDist.length := by
    rw [hdist.1]
    exact i.isLt
  have hlen := hdist.2 _ (List.getElem_mem hi)
  show (sDist.getD i.val .empty).chars.length = 24
  rw [List.getD_eq_getElem?_getD, List.getElem?_eq_getElem hi, Option.getD_some]
  omega

variable [Money F]

theorem generateItem_yields {id : ℤ} (hid : id ∈ idsTo g.numItems) (original : Bool) :
    (g.generateItem (F := F) id original).Yields fair fun item =>
      item.iId = id ∧ DataString (original = true) item.iData.chars := by
  rw [generateItem]
  refine (Rx.Yields.assert fun _ => mem_idsTo.mp hid).bind fun _ _ => ?_
  refine (g.random.draw_yields (by decide)).bind fun iImId _ => ?_
  refine (g.random.fixedPoint_yields 2 1 100).bind fun iPrice _ => ?_
  refine (g.random.astring_yields (by decide) (by decide) le_rfl).bind fun iName _ => ?_
  refine astring_data.bind fun iData hdata => ?_
  exact (original_yields original hdata).bind fun iData' hdata' => Rx.Yields.pure ⟨rfl, hdata'⟩

theorem generateWarehouse_yields {id : ℤ} (hid : fair → 1 ≤ id ∧ id ≤ 100) :
    (g.generateWarehouse (F := F) id).Yields fair fun w =>
      w.wId = id ∧ w.wYtd = ((300000 : ℤ) : F) ∧ 1 ≤ id ∧ id ≤ 100 := by
  rw [generateWarehouse]
  refine (Rx.Yields.assert hid).bind fun _ hid => ?_
  refine (g.random.fixedPoint_yields 4 0 _).bind fun wTax _ => ?_
  refine (g.random.astring_yields (by decide) (by decide) le_rfl).bind fun wName _ => ?_
  exact g.makeAddress_yields.bind fun wAddress _ => Rx.Yields.pure ⟨rfl, rfl, hid⟩

theorem generateDistrict_yields {id : ℤ} (hid : id ∈ idsTo g.districtsPerWarehouse) (wId : ℤ) :
    (g.generateDistrict (F := F) id wId).Yields fair fun d =>
      rowId .district d = (wId, id) ∧ d.dYtd = ((30000 : ℤ) : F) ∧ d.dNextOId = g.customersPerDistrict + 1 := by
  rw [generateDistrict]
  refine (Rx.Yields.assert fun _ => mem_idsTo.mp hid).bind fun _ _ => ?_
  refine (g.random.fixedPoint_yields 4 0 _).bind fun dTax _ => ?_
  refine (g.random.astring_yields (by decide) (by decide) le_rfl).bind fun dName _ => ?_
  exact g.makeAddress_yields.bind fun dAddress _ => Rx.Yields.pure ⟨rfl, rfl, rfl⟩

theorem generateCustomer_yields (hfair : fair → g.Fair tries) {id : ℤ}
    (hid : id ∈ idsTo g.customersPerDistrict) (dId wId : ℤ) (badCredit : Bool) :
    (g.generateCustomer (F := F) id dId wId badCredit).Yields fair (MakesCustomer wId dId id) := by
  rw [generateCustomer]
  have hids := mem_idsTo.mp hid
  refine (Rx.Yields.assert fun _ => hids).bind fun _ _ => ?_
  refine (g.random.fixedPoint_yields 4 0 _).bind fun cDiscount _ => ?_
  refine (g.random.astring_yields (by decide) (by decide) le_rfl).bind fun cFirst _ => ?_
  refine (Rx.Yields.lift fun _ => CString.strcpy_isSome (by decide)).bind fun cMiddle _ => ?_
  refine Rx.Yields.bind (J := fun cLast => ∃ num, makeLastName num = some cLast ∧ (id ≤ 1000 → num = id - 1))
    (Rx.Yields.ite (fun hle => ?_) fun hle => ?_) fun cLast hlast => ?_
  · exact (Rx.Yields.lift fun _ => makeLastName_isSome (by omega) (by omega)).mono fun cLast h =>
      ⟨id - 1, h, fun _ => rfl⟩
  · exact (g.random.lastName_yields (by omega) fun h => (hfair h).cLast).mono fun cLast ⟨num, h, _⟩ =>
      ⟨num, h, fun h => absurd h hle⟩
  refine g.makeAddress_yields.bind fun cAddress _ => ?_
  refine (g.random.nstring_yields (by decide) le_rfl le_rfl).bind fun cPhone _ => ?_
  refine (Rx.Yields.lift fun _ => CString.strcpy_isSome (by cases badCredit <;> decide)).bind fun cCredit _ => ?_
  refine (g.random.astring_yields (by decide) (by decide) le_rfl).bind fun cData _ => ?_
  exact Rx.Yields.pure ⟨rfl, rfl, rfl, rfl, rfl, hlast⟩

theorem makeAddress_takes : (makeAddress g.random).Takes 71 := by
  rw [makeAddress]
  have hstring : (g.random.astring 20 10 20).Takes 21 := g.random.astring_takes 20 (by decide)
  have hstate : (g.random.astring 2 2 2).Takes 3 := g.random.astring_takes 2 le_rfl
  have hzip : (g.random.nstring 9 4 4).Takes 5 := g.random.nstring_takes 9 le_rfl
  exact hstring.bind fun _ => hstring.bind fun _ => hstring.bind fun _ => hstate.bind fun _ =>
    (hzip.bind fun _ => Rx.Takes.lift _).bind fun _ => Rx.Takes.pure _

/-- **What is drawn for a customer**: the first name, from the third number on. -/
theorem generateCustomer_draws {id dId wId : ℤ} {badCredit : Bool} {n n' : ℕ} {c : Customer F}
    (h : g.generateCustomer id dId wId badCredit n = some (c, n')) :
    n < n' ∧ n' ≤ n + 603 ∧ g.random.Spells (n + 2) c.cFirst.chars := by
  rw [generateCustomer] at h
  obtain ⟨_, n₀, h₀, h⟩ := bind_eq_some h
  obtain ⟨-, rfl⟩ := assert_eq_some h₀
  obtain ⟨cDiscount, n₁, h₁, h⟩ := bind_eq_some h
  obtain ⟨-, rfl⟩ := Prod.mk.inj (Option.some.inj h₁)
  obtain ⟨cFirst, n₂, h₂, h⟩ := bind_eq_some h
  obtain ⟨hn₂, hchars⟩ := g.random.generateString_eq_some h₂
  have hlo := g.random.lower_le (n + 1) (show (6 : ℤ) ≤ 10 by decide)
  have hup := g.random.le_upper (n + 1) (show (6 : ℤ) ≤ 10 by decide)
  obtain ⟨cMiddle, n₃, h₃, h⟩ := bind_eq_some h
  obtain ⟨-, rfl⟩ := lift_eq_some h₃
  obtain ⟨cLast, n₄, h₄, h⟩ := bind_eq_some h
  have hlast := Rx.Takes.ite (Rx.Takes.lift _) (g.random.lastName_takes _) h₄
  obtain ⟨cAddress, n₅, h₅, h⟩ := bind_eq_some h
  have haddress := g.makeAddress_takes h₅
  obtain ⟨cPhone, n₆, h₆, h⟩ := bind_eq_some h
  have hphone := g.random.nstring_takes 16 (by decide) h₆
  obtain ⟨cCredit, n₇, h₇, h⟩ := bind_eq_some h
  obtain ⟨-, rfl⟩ := lift_eq_some h₇
  obtain ⟨cData, n₈, h₈, h⟩ := bind_eq_some h
  have hdata := g.random.astring_takes 500 (by decide) h₈
  obtain ⟨rfl, rfl⟩ := Prod.mk.inj (Option.some.inj h)
  refine ⟨by omega, by omega, fun j hj => ?_⟩
  show cFirst.chars[j]? = _
  have hlt : j < (g.random.number (n + 1) 6 10).toNat := by omega
  rw [hchars, List.getElem?_map, List.getElem?_range hlt]
  rfl

theorem generateHistory_yields (cId dId wId : ℤ) :
    (g.generateHistory (F := F) cId dId wId).Yields fair (MakesHistory wId dId cId) := by
  rw [generateHistory]
  exact (g.random.astring_yields (by decide) (by decide) le_rfl).bind fun hData _ =>
    Rx.Yields.pure ⟨rfl, rfl, rfl⟩

theorem generateHistory_draws {cId dId wId : ℤ} {n n' : ℕ} {h : History F}
    (hrun : g.generateHistory cId dId wId n = some (h, n')) : n ≤ n' ∧ n' ≤ n + 25 := by
  rw [generateHistory] at hrun
  obtain ⟨hData, n₁, h₁, hrun⟩ := bind_eq_some hrun
  have hdata := g.random.astring_takes 24 (by decide) h₁
  obtain ⟨-, rfl⟩ := Prod.mk.inj (Option.some.inj hrun)
  omega

omit [Money F] in
theorem generateOrder_yields (id cId dId wId : ℤ) :
    (g.generateOrder id cId dId wId (g.IsNew id)).Yields fair fun o =>
      (o.oWId, o.oDId, o.oId) = (wId, dId, id) ∧ o.oCId = cId ∧
        (o.oCarrierId = Order.nullCarrierId ↔ g.IsNew id) ∧ 5 ≤ o.oOlCnt ∧ o.oOlCnt ≤ 15 := by
  rw [generateOrder]
  refine Rx.Yields.bind (J := fun carrier => carrier = Order.nullCarrierId ↔ g.IsNew id) ?_ fun carrier hcarrier => ?_
  · refine Rx.Yields.ite (fun hold => ?_) fun hnew => ?_
    · refine (g.random.draw_yields (by decide)).mono fun carrier h => ⟨fun heq => ?_, fun hnew => ?_⟩
      · rw [heq] at h
        exact absurd h.1 (by decide)
      · simp [hnew] at hold
    · exact Rx.Yields.pure ⟨fun _ => by simpa using hnew, fun _ => rfl⟩
  · exact (g.random.draw_yields (by decide)).bind fun olCnt h => Rx.Yields.pure ⟨rfl, rfl, hcarrier, h⟩

theorem generateOrderLine_yields (number oId dId wId : ℤ) :
    (g.generateOrderLine (F := F) number oId dId wId (g.IsNew oId)).Yields fair
      (g.MakesLine wId dId oId number) := by
  rw [generateOrderLine]
  refine (g.random.draw_answers 1 100000).bind fun olIId hitem => ?_
  refine Rx.Yields.bind (J := fun olAmount => ¬g.IsNew oId → olAmount = 0) (Rx.Yields.ite (fun _ => ?_) fun hnew => ?_)
    fun olAmount hamount => ?_
  · exact Rx.Yields.pure fun _ => rfl
  · refine (g.random.fixedPoint_yields 2 _ _).mono fun _ _ hold => ?_
    simp [hold] at hnew
  refine (g.random.astring_yields (by decide) le_rfl le_rfl).bind fun olDistInfo _ => Rx.Yields.pure ?_
  exact
    { id := rfl
      item := hitem
      supply := rfl
      new := fun hnew => by simp [hnew, CString.empty, CString.chars]
      old := fun hold => ⟨by simp [hold], hamount hold⟩ }

/-! ### What is inserted -/

omit [Money F] in
/-- **A loop that inserts one row** in each turn. -/
theorem forM_row_emits {A : Type} [Inhabited A] (row : A → Insertion F) (P : ℤ → A → Prop)
    {x : ℤ → Gen F Unit} {n : ℕ} (h : ∀ i ∈ idsTo n, Emits fair (x i) fun _ is => ∃ a, P i a ∧ is = [row a]) :
    Emits fair ((idsTo n).forM x) fun _ is =>
      ∃ f : ℤ → A, (∀ i ∈ idsTo n, P i (f i)) ∧ is = (idsTo n).map fun i => row (f i) := by
  refine (Emits.forM (nodup_idsTo n) h).mono ?_
  rintro - is ⟨f, hf, rfl⟩
  exact ⟨f, hf, (List.map_eq_flatMap).symm⟩

variable {g}

omit [Money F] in
theorem makeStock_emits (hfair : fair → g.Fair tries) (wId : ℤ) :
    Emits fair (g.makeStock (F := F) tries wId) fun _ is =>
      ∃ f : ℤ → Stock, (∀ i ∈ idsTo g.numItems, MakesStock wId i (f i)) ∧
        is = (idsTo g.numItems).map fun i => .stock (f i) := by
  rw [makeStock]
  refine Emits.draws (selectUniqueIds_yields (by omega) fun h => (hfair h).items) fun selectedRows _ => ?_
  refine forM_row_emits .stock (MakesStock wId) fun i hi => ?_
  exact Emits.draws (g.generateStock_yields hi wId _) fun s hs => Emits.insertion.mono fun _ is his =>
    ⟨s, hs.1, his⟩

theorem makeItemsTable_emits (hfair : fair → g.Fair tries) :
    Emits fair (g.makeItemsTable (F := F) tries) fun _ is =>
      ∃ f : ℤ → Item F, (∀ i ∈ idsTo g.numItems, (f i).iId = i) ∧
        is = (idsTo g.numItems).map fun i => .item (f i) := by
  rw [makeItemsTable]
  refine Emits.draws (selectUniqueIds_yields (by omega) fun h => (hfair h).items) fun originalRows _ => ?_
  refine forM_row_emits .item (fun i item => item.iId = i) fun i hi => ?_
  exact Emits.draws (g.generateItem_yields hi _) fun item hitem => Emits.insertion.mono fun _ is his =>
    ⟨item, hitem.1, his⟩

theorem makeOrder_emits (wId dId : ℤ) {permutation : List ℤ} {oId : ℤ}
    (hperm : permutation.length = g.customersPerDistrict) (ho : oId ∈ idsTo g.customersPerDistrict) :
    Emits fair (g.makeOrder (F := F) wId dId permutation oId) fun _ is =>
      ∃ x : OrderData F, (g.MakesOrder wId dId oId x ∧ permutation[(oId - 1).toNat]? = some x.order.oCId) ∧
        is = g.orderRows wId dId oId x := by
  rw [makeOrder]
  have hids := mem_idsTo.mp ho
  refine Emits.lifts (fun _ => ?_) fun cId hcId => ?_
  · rw [List.getElem?_eq_getElem (by omega)]
    rfl
  refine Emits.draws (g.generateOrder_yields oId cId dId wId) ?_
  rintro o ⟨hid, rfl, hcarrier, hcnt⟩
  refine Emits.inserts (Emits.bind
    (forM_row_emits .orderLine (g.MakesLine wId dId oId) fun number _ => ?_) ?_)
  · exact Emits.draws (g.generateOrderLine_yields number oId dId wId) fun line hline =>
      Emits.insertion.mono fun _ is his => ⟨line, hline, his⟩
  · rintro - is ⟨line, hline, rfl⟩
    have hx : g.MakesOrder wId dId oId ⟨o, line⟩ := ⟨hid, hcarrier, hcnt, fun number h₁ h₂ =>
      hline number (mem_idsTo.mpr ⟨h₁, h₂.trans (Int.self_le_toNat _)⟩)⟩
    change Emits fair (if decide (g.IsNew oId) = true then _ else _) _
    by_cases hnew : g.IsNew oId
    · rw [if_pos (decide_eq_true hnew)]
      refine Emits.insertion.mono ?_
      rintro - is rfl
      refine ⟨⟨o, line⟩, ⟨hx, hcId⟩, ?_⟩
      rw [orderRows, if_pos hnew]
      rfl
    · rw [if_neg fun h => hnew (of_decide_eq_true h)]
      refine Emits.pure ⟨⟨o, line⟩, ⟨hx, hcId⟩, ?_⟩
      rw [orderRows, if_neg hnew]
      rfl

/-- A customer that is made with the numbers between two. -/
structure MakesAt (g : TPCCGenerator) (wId dId cId : ℤ) (x : (Customer F × History F) × ℕ × ℕ) : Prop where
  customer : MakesCustomer wId dId cId x.1.1
  history : MakesHistory wId dId cId x.1.2
  draws : x.2.1 < x.2.2 ∧ x.2.2 ≤ x.2.1 + 628
  first : g.random.Spells (x.2.1 + 2) x.1.1.cFirst.chars

theorem makeCustomer_emits (hfair : fair → g.Fair tries) (wId dId : ℤ) (selectedRows : List ℤ) {cId : ℤ}
    (hc : cId ∈ idsTo g.customersPerDistrict) (n : ℕ) :
    EmitsAt fair (g.makeCustomer (F := F) wId dId selectedRows cId) n fun _ n' is =>
      ∃ x : Customer F × History F, g.MakesAt wId dId cId (x, n, n') ∧ is = [.customer x.1, .history x.2] := by
  rw [makeCustomer]
  refine EmitsAt.draws (g.generateCustomer_yields hfair hc dId wId _) fun c n₁ hn₁ hc =>
    EmitsAt.inserts ?_
  refine EmitsAt.draws (g.generateHistory_yields cId dId wId) fun h n₂ hn₂ hh => EmitsAt.insertion.mono ?_
  rintro - n' is ⟨rfl, rfl⟩
  have hcust := g.generateCustomer_draws hn₁
  have hhist := g.generateHistory_draws hn₂
  have hdraws : n < n' ∧ n' ≤ n + 628 := by omega
  exact ⟨(c, h), ⟨hc, hh, hdraws, hcust.2.2⟩, rfl⟩

/-- The customers of a district, one after the other. -/
theorem makeCustomers_emits (hfair : fair → g.Fair tries) (wId dId : ℤ) (selectedRows : List ℤ) :
    Emits fair ((idsTo g.customersPerDistrict).forM (g.makeCustomer (F := F) wId dId selectedRows)) fun _ is =>
      ∃ n n', ∃ x : ℤ → (Customer F × History F) × ℕ × ℕ,
        (∀ c ∈ idsTo g.customersPerDistrict, g.MakesAt wId dId c (x c)) ∧
          Chained x n (idsTo g.customersPerDistrict) n' ∧
          is = (idsTo g.customersPerDistrict).flatMap fun c => [.customer (x c).1.1, .history (x c).1.2] := fun n =>
  (EmitsAt.forM (nodup_idsTo _) (fun _ hc n => makeCustomer_emits hfair wId dId selectedRows hc n) n).mono
    fun _ n' _ h => ⟨n, n', h⟩

/-- The ids, as the range the permutation is of. -/
theorem range_eq_idsTo (n : ℕ) :
    ((List.range ((n : ℤ) - 1 + 1).toNat).map fun i : ℕ => (1 : ℤ) + i) = idsTo n := by
  rw [idsTo, sub_add_cancel, Int.toNat_natCast]
  exact List.map_congr_left fun i _ => add_comm _ _

theorem makeDistrict_emits (hfair : fair → g.Fair tries) (wId : ℤ) {dId : ℤ}
    (hd : dId ∈ idsTo g.districtsPerWarehouse) :
    Emits fair (g.makeDistrict (F := F) tries wId dId) fun _ is =>
      ∃ x : DistrictData F, g.MakesDistrict wId dId x ∧ is = g.districtRows wId dId x := by
  rw [makeDistrict]
  have hcustomers := g.customers_range.1
  refine Emits.draws (g.generateDistrict_yields hd wId) fun d hd => Emits.inserts ?_
  refine Emits.draws (selectUniqueIds_yields (by omega) fun h => (hfair h).customers) fun selectedRows _ => ?_
  refine (makeCustomers_emits hfair wId dId selectedRows).bind ?_
  rintro - is ⟨n, n', x, hx, hchain, rfl⟩
  refine Emits.draws (g.random.makePermutation_yields (by omega)) fun permutation hperm => ?_
  rw [range_eq_idsTo] at hperm
  have hlen := hperm.length_eq
  rw [idsTo, List.length_map, List.length_range] at hlen
  refine (Emits.forM (nodup_idsTo _) fun oId ho => makeOrder_emits wId dId hlen ho).mono ?_
  rintro - is ⟨y, hy, rfl⟩
  refine ⟨⟨d, fun c => (x c).1.1, fun c => (x c).1.2, permutation, y⟩, ?_, ?_⟩
  · exact
      { id := hd.1
        ytd := hd.2.1
        nextOId := hd.2.2
        customer := fun cId h₁ h₂ => (hx cId (mem_idsTo.mpr ⟨h₁, h₂⟩)).customer
        history := fun cId h₁ h₂ => (hx cId (mem_idsTo.mpr ⟨h₁, h₂⟩)).history
        first := by
          obtain ⟨⟨-, hlen⟩, hin, hpair⟩ := hchain.bounds fun c hc => (hx c hc).draws
          rw [length_idsTo] at hlen
          refine ⟨n, fun c => (x c).2.1, fun c hc => ?_, List.pairwise_map.mpr (hpair.imp fun h => h.ne)⟩
          have hstart : n ≤ (x c).2.1 ∧ (x c).2.1 < n + 628 * g.customersPerDistrict := by
            have := hin c hc
            omega
          exact ⟨hstart, (hx c hc).first⟩
        permutation := hperm
        order := fun oId h₁ h₂ => hy oId (mem_idsTo.mpr ⟨h₁, h₂⟩) }
  · rfl

theorem makeWarehouse_emits (hfair : fair → g.Fair tries) {wId : ℤ} (hw : fair → 1 ≤ wId ∧ wId ≤ 100) :
    Emits fair (g.makeWarehouse (F := F) tries wId) fun _ is =>
      ∃ x : WarehouseData F, (g.MakesWarehouse wId x ∧ 1 ≤ wId ∧ wId ≤ 100) ∧ is = g.warehouseRows wId x := by
  rw [makeWarehouse]
  refine (makeStock_emits hfair wId).bind ?_
  rintro - is ⟨s, hs, rfl⟩
  rw [makeWarehouseWithoutStock]
  refine Emits.draws (g.generateWarehouse_yields hw) fun w hw => Emits.inserts ?_
  refine (Emits.forM (nodup_idsTo _) fun dId hd => makeDistrict_emits hfair wId hd).mono ?_
  rintro - is ⟨x, hx, rfl⟩
  refine ⟨⟨s, w, x⟩, ⟨?_, hw.2.2⟩, rfl⟩
  exact
    { stock := fun iId h₁ h₂ => hs iId (mem_idsTo.mpr ⟨h₁, h₂⟩)
      id := hw.1
      ytd := hw.2.1
      district := fun dId h₁ h₂ => hx dId (mem_idsTo.mpr ⟨h₁, h₂⟩) }

/-- **What a load inserts.** -/
theorem load_emits {warehouses : ℕ} (hfair : fair → g.Fair tries ∧ warehouses ≤ 100) :
    Emits fair (g.load (F := F) tries warehouses) fun _ is =>
      ∃ x : LoadData F, g.Makes warehouses x ∧ is = g.rows warehouses x := by
  rw [load]
  refine (makeItemsTable_emits fun h => (hfair h).1).bind ?_
  rintro - is ⟨item, hitem, rfl⟩
  refine (Emits.forM (nodup_idsTo _) fun wId hw => makeWarehouse_emits (fun h => (hfair h).1) fun h => ?_).mono ?_
  · have hw := mem_idsTo.mp hw
    have hle := (hfair h).2
    omega
  rintro - is ⟨x, hx, rfl⟩
  refine ⟨⟨item, x⟩, ?_, rfl⟩
  exact
    { item := fun iId h₁ h₂ => hitem iId (mem_idsTo.mpr ⟨h₁, h₂⟩)
      warehouse := fun wId h₁ h₂ => (hx wId (mem_idsTo.mpr ⟨h₁, h₂⟩)).1
      warehouses_le := fun h => by
        have := (hx warehouses (mem_idsTo.mpr ⟨by omega, le_rfl⟩)).2.2
        omega }

end TPCCGenerator

end TpccBench
