import TpccBench.Db.Districts
import TpccBench.Db.StockLevels

/-!
# The order pipeline

The orders of a district have the ids from one on, and they are delivered in the order in which
they were placed: those from some id on wait in the queue, and the others have a carrier and
dates (`TpccBench.Db.Pipeline`). A step leaves it like this, and what a delivery takes is the
head of the queue (`TpccBench.Db.Pipeline.step`).
-/

namespace TpccBench

open Prog

variable {F : Type}

/-- Consecutive ids, from `k` up to but not including `k'`. -/
def idsFrom (k k' : ℤ) : List ℤ := (List.range (k' - k).toNat).map fun i : ℕ => k + i

@[simp] theorem idsFrom_self (k : ℤ) : idsFrom k k = [] := by simp [idsFrom]

theorem idsFrom_succ {k k' : ℤ} (h : k ≤ k') : idsFrom k (k' + 1) = idsFrom k k' ++ [k'] := by
  have hlen : (k' + 1 - k).toNat = (k' - k).toNat + 1 := by omega
  rw [idsFrom, hlen, List.range_succ, List.map_append, List.map_singleton, idsFrom]
  have hlast : k + ((k' - k).toNat : ℤ) = k' := by omega
  rw [hlast]

theorem mem_idsFrom {k k' o : ℤ} : o ∈ idsFrom k k' ↔ k ≤ o ∧ o < k' := by
  rw [idsFrom, List.mem_map]
  constructor
  · rintro ⟨i, hi, rfl⟩
    have := List.mem_range.mp hi
    omega
  · intro h
    exact ⟨(o - k).toNat, List.mem_range.mpr (by omega), by omega⟩

/-- The carrier of a delivery is one. -/
def Txn.Carries : Txn F → Prop
  | .delivery _ carrierId _ => 1 ≤ carrierId
  | _ => True

instance (x : Txn F) : Decidable x.Carries :=
  match x with
  | .delivery _ carrierId _ => inferInstanceAs (Decidable (1 ≤ carrierId))
  | .newOrder .. | .newOrderHome .. | .newOrderRemote .. | .payment .. | .paymentByName .. | .paymentHome ..
  | .paymentRemote .. | .paymentRemoteByName .. => .isTrue trivial

namespace Db

variable {db db' : Db F} {w d k n : ℤ}

/-- **The orders of a district**: they have the ids below `n`, and those from `k` on are not
delivered. -/
structure Queue (db : Db F) (w d k n : ℤ) : Prop where
  nextOId : (db.row .district (w, d)).map District.dNextOId = some n
  bounds : 1 ≤ k ∧ k ≤ n
  order (o : ℤ) : (db.row .order (w, d, o)).isSome ↔ 1 ≤ o ∧ o < n
  newOrder (o : ℤ) : (db.row .newOrder (w, d, o)).isSome ↔ k ≤ o ∧ o < n
  customer {o : ℤ} {order : Order} : db.row .order (w, d, o) = some order →
    (db.row .customer (w, d, order.oCId)).isSome
  line {o : ℤ} {order : Order} : db.row .order (w, d, o) = some order → ∀ i,
    (db.row .orderLine (w, d, o, i)).isSome ↔ 1 ≤ i ∧ i ≤ order.oOlCnt
  lineOrder {o i : ℤ} : (db.row .orderLine (w, d, o, i)).isSome → (db.row .order (w, d, o)).isSome
  deliveryD {o i : ℤ} {line : OrderLine F} : db.row .orderLine (w, d, o, i) = some line →
    (line.olDeliveryD.chars = [] ↔ k ≤ o)

/-- **The order pipeline**: the orders that are delivered have a carrier. -/
structure Pipeline (db : Db F) (w d k n : ℤ) : Prop extends Queue db w d k n where
  carrier {o : ℤ} {order : Order} : db.row .order (w, d, o) = some order →
    (order.oCarrierId = Order.nullCarrierId ↔ k ≤ o)

/-- It is about the orders of the district only. -/
theorem Queue.congr (h : db.Queue w d k n) (hs : SameOrders w d db db') : db'.Queue w d k n where
  nextOId := hs.nextOId.trans h.nextOId
  bounds := h.bounds
  order o := by rw [hs.order, h.order]
  newOrder o := by rw [hs.newOrder, h.newOrder]
  customer ho := by
    rw [hs.customer]
    exact h.customer ((hs.order _).symm.trans ho)
  line ho i := by
    rw [hs.orderLine]
    exact h.line ((hs.order _).symm.trans ho) i
  lineOrder := by
    simp only [hs.orderLine, hs.order]
    exact h.lineOrder
  deliveryD hl := h.deliveryD ((hs.orderLine _ _).symm.trans hl)

theorem Pipeline.congr (h : db.Pipeline w d k n) (hs : SameOrders w d db db') : db'.Pipeline w d k n :=
  ⟨h.toQueue.congr hs, fun ho => h.carrier ((hs.order _).symm.trans ho)⟩

/-- **The head of the queue.** -/
theorem Queue.oldest (h : db.Queue w d k n) (hlt : k < n) : db.oldest w d = some k :=
  oldest_eq_some.mpr ⟨(h.newOrder k).mpr ⟨le_rfl, hlt⟩, fun o ho => ((h.newOrder o).mp ho).1⟩

theorem Queue.oldest_eq_some (h : db.Queue w d k n) {o : ℤ} (ho : db.oldest w d = some o) : o = k ∧ k < n := by
  have hmem := (h.newOrder o).mp (Db.oldest_eq_some.mp ho).1
  have hlt : k < n := by omega
  exact ⟨Option.some.inj (ho.symm.trans (h.oldest hlt)), hlt⟩

theorem Queue.oldest_eq_none (h : db.Queue w d k n) : db.oldest w d = none ↔ k = n := by
  have hle := h.bounds.2
  constructor
  · intro hnone
    by_contra hne
    exact absurd ((h.oldest (by omega)).symm.trans hnone) (by simp)
  · rintro rfl
    refine Db.oldest_eq_none.mpr fun o ho => ?_
    have := (h.newOrder o).mp ho.1
    omega

variable [Money F]

/-- **An order is placed**: it is the last one. -/
theorem Queue.place (h : db.Queue w d k n) {c : ℤ} {items : List NewOrderItem} {p : Placement F w d c items}
    (hp : p.Valid db) : p.oId = n ∧ (p.apply db).Queue w d k (n + 1) := by
  have hn : p.oId = n := by
    have hnext := h.nextOId
    rw [hp.district] at hnext
    exact Option.some.inj hnext
  refine ⟨hn, ?_⟩
  have hbounds := h.bounds
  have hid : ∀ o : ℤ, (w, d, o) = (w, d, p.oId) ↔ o = n := fun o => by simp [hn]
  have hline : ∀ o i : ℤ, o ≠ n → (p.apply db).row .orderLine (w, d, o, i) = db.row .orderLine (w, d, o, i) :=
    fun o i hne => hp.apply_line_of_ne fun j _ heq => hne (by simpa [hn] using congrArg (fun a => a.2.2.1) heq)
  -- the lines of the new order
  have hnew : ∀ i : ℤ, 1 ≤ i ∧ i ≤ items.length → ∃ item amount info,
      (p.apply db).row .orderLine (w, d, n, i) = some (.placed w d n i item amount info) := fun i hi => by
    have hlt : (i - 1).toNat < items.length := by omega
    obtain ⟨_, tuple, info, -, -, -, hrow⟩ := hp.line_at (List.getElem?_eq_getElem hlt)
    have hi : (((i - 1).toNat : ℕ) : ℤ) + 1 = i := by omega
    rw [hn, hi] at hrow
    exact ⟨_, _, _, hrow⟩
  have hnone : ∀ i : ℤ, ¬(1 ≤ i ∧ i ≤ items.length) → (p.apply db).row .orderLine (w, d, n, i) = none := fun i hi => by
    rw [hp.apply_line_of_ne fun j hj heq => hi ?_]
    · by_contra hsome
      obtain ⟨line, hline⟩ := Option.ne_none_iff_exists'.mp hsome
      have := (h.order n).mp (h.lineOrder (Option.isSome_iff_exists.mpr ⟨line, hline⟩))
      omega
    · have : i = j + 1 := by simpa [hn] using congrArg (fun a => a.2.2.2) heq
      omega
  constructor
  case nextOId =>
    rw [Placement.apply_district, if_pos rfl, Option.map_some, ← hn]
    rfl
  case bounds => omega
  case order =>
    intro o
    rw [Placement.apply_order]
    simp only [hid]
    split
    · next ho => simp [ho]; omega
    · next ho => rw [h.order]; omega
  case newOrder =>
    intro o
    rw [Placement.apply_newOrder]
    simp only [hid]
    split
    · next ho => simp [ho]; omega
    · next ho => rw [h.newOrder]; omega
  case customer =>
    intro o order ho
    rw [Placement.apply_row_of_ne (by decide)]
    rw [Placement.apply_order] at ho
    split at ho
    · obtain rfl := Option.some.inj ho
      exact hp.customer
    · exact h.customer ho
  case line =>
    intro o order ho i
    rw [Placement.apply_order] at ho
    simp only [hid] at ho
    split at ho
    · next heq =>
      obtain rfl := Option.some.inj ho
      subst heq
      by_cases hi : 1 ≤ i ∧ i ≤ (items.length : ℤ)
      · obtain ⟨item, amount, info, hrow⟩ := hnew i hi
        rw [hrow]
        exact ⟨fun _ => hi, fun _ => rfl⟩
      · rw [hnone i hi]
        exact ⟨fun h => absurd h (by simp), fun h => absurd h hi⟩
    · next hne =>
      rw [hline o i hne]
      exact h.line ho i
  case lineOrder =>
    intro o i hsome
    rw [Placement.apply_order]
    simp only [hid]
    split
    · rfl
    · next hne =>
      rw [hline o i hne] at hsome
      exact h.lineOrder hsome
  case deliveryD =>
    intro o i line hl
    by_cases heq : o = n
    · subst heq
      by_cases hi : 1 ≤ i ∧ i ≤ (items.length : ℤ)
      · obtain ⟨item, amount, info, hrow⟩ := hnew i hi
        obtain rfl := Option.some.inj (hrow.symm.trans hl)
        have hempty : (OrderLine.placed w d o i item amount info).olDeliveryD.chars = [] := rfl
        simp only [hempty, true_iff]
        omega
      · exact absurd ((hnone i hi).symm.trans hl) (by simp)
    · rw [hline o i heq] at hl
      exact h.deliveryD hl

/-- **The head of the queue is delivered**: the next order is the head. -/
theorem Queue.ship (h : db.Queue w d k n) (hk : db.Keyed) (hlt : k < n) {carrierId : ℤ} {now : List Char}
    {p : Shipment F} (hp : p.Valid w d k now db) : (p.apply w d k carrierId db).Queue w d (k + 1) n := by
  have hbounds := h.bounds
  have hid : ∀ o : ℤ, (w, d, o) = (w, d, k) ↔ o = k := fun o => by simp
  have hcnt : ∀ i, (db.row .orderLine (w, d, k, i)).isSome ↔ 1 ≤ i ∧ i ≤ p.order.oOlCnt := h.line hp.order
  have hother : ∀ o i : ℤ, o ≠ k → (p.apply w d k carrierId db).row .orderLine (w, d, o, i) =
      db.row .orderLine (w, d, o, i) := fun o i hne =>
    hp.apply_line_of_ne hk fun j _ heq => hne (by simpa using congrArg (fun a => a.2.2.1) heq)
  have hout : ∀ i : ℤ, ¬(1 ≤ i ∧ i ≤ p.order.oOlCnt) → (p.apply w d k carrierId db).row .orderLine (w, d, k, i) =
      db.row .orderLine (w, d, k, i) := fun i hi =>
    hp.apply_line_of_ne hk fun j hj heq => hi (by
      have : i = j + 1 := by simpa using congrArg (fun a => a.2.2.2) heq
      omega)
  have hin : ∀ i : ℤ, 1 ≤ i ∧ i ≤ p.order.oOlCnt → ∃ line : OrderLine F,
      (p.apply w d k carrierId db).row .orderLine (w, d, k, i) = some line ∧ line.olDeliveryD.chars ≠ [] := fun i hi => by
    have hj : (i - 1).toNat < p.order.oOlCnt.toNat := by omega
    have hrow : (p.apply w d k carrierId db).row .orderLine (w, d, k, (((i - 1).toNat : ℕ) : ℤ) + 1) =
        some ((p.line (i - 1).toNat).delivered p.olDeliveryD) := hp.apply_line hk hj
    have heq : (((i - 1).toNat : ℕ) : ℤ) + 1 = i := by omega
    rw [heq] at hrow
    obtain ⟨hdate, hlen⟩ := (hp.line _ hj).2.2
    refine ⟨_, hrow, fun hempty => ?_⟩
    have hempty : p.olDeliveryD.chars = [] := hempty
    rw [← CString.strcpy_eq_some hdate, hempty] at hlen
    exact absurd hlen (by decide)
  have hlines : ∀ o i : ℤ, ((p.apply w d k carrierId db).row .orderLine (w, d, o, i)).isSome =
      (db.row .orderLine (w, d, o, i)).isSome := fun o i => by
    by_cases ho : o = k
    · subst ho
      by_cases hi : 1 ≤ i ∧ i ≤ p.order.oOlCnt
      · obtain ⟨line, hrow, -⟩ := hin i hi
        rw [hrow, (hcnt i).mpr hi]
        rfl
      · rw [hout i hi]
    · rw [hother o i ho]
  constructor
  case nextOId => rw [Shipment.apply_row_of_ne (by decide), h.nextOId]
  case bounds => omega
  case order =>
    intro o
    rw [Shipment.apply_order]
    simp only [hid]
    split
    · next ho => simp [ho]; omega
    · exact h.order o
  case newOrder =>
    intro o
    rw [Shipment.apply_newOrder]
    simp only [hid]
    split
    · next ho => simp [ho]
    · next ho => rw [h.newOrder]; omega
  case customer =>
    intro o order ho
    obtain ⟨order₀, ho₀, hcust, -⟩ := hp.order_of_apply ho
    rw [hcust, Shipment.apply_customer]
    split
    · rfl
    · exact h.customer ho₀
  case line =>
    intro o order ho i
    obtain ⟨order₀, ho₀, -, hcnt₀, -⟩ := hp.order_of_apply ho
    rw [hlines, hcnt₀]
    exact h.line ho₀ i
  case lineOrder =>
    intro o i hsome
    rw [hlines] at hsome
    rw [Shipment.apply_order]
    split
    · rfl
    · exact h.lineOrder hsome
  case deliveryD =>
    intro o i line hl
    by_cases ho : o = k
    · subst ho
      by_cases hi : 1 ≤ i ∧ i ≤ p.order.oOlCnt
      · obtain ⟨line', hrow, hne⟩ := hin i hi
        obtain rfl := Option.some.inj (hrow.symm.trans hl)
        exact ⟨fun h => absurd h hne, fun h => by omega⟩
      · rw [hout i hi] at hl
        exact absurd ((hcnt i).mp (by rw [hl]; rfl)) hi
    · rw [hother o i ho] at hl
      rw [h.deliveryD hl]
      omega

theorem Pipeline.place (h : db.Pipeline w d k n) {c : ℤ} {items : List NewOrderItem} {p : Placement F w d c items}
    (hp : p.Valid db) : (p.apply db).Pipeline w d k (n + 1) := by
  obtain ⟨hn, hqueue⟩ := h.toQueue.place hp
  refine ⟨hqueue, fun {o order} ho => ?_⟩
  have hbounds := h.bounds
  rw [Placement.apply_order] at ho
  split at ho
  · next heq =>
    obtain rfl := Option.some.inj ho
    have hon : o = n := by simpa [hn] using heq
    simp only [Placement.order, Order.placed, true_iff]
    omega
  · exact h.carrier ho

theorem Pipeline.ship (h : db.Pipeline w d k n) (hk : db.Keyed) (hlt : k < n) {carrierId : ℤ}
    (hc : carrierId ≠ Order.nullCarrierId) {now : List Char} {p : Shipment F} (hp : p.Valid w d k now db) :
    (p.apply w d k carrierId db).Pipeline w d (k + 1) n := by
  refine ⟨h.toQueue.ship hk hlt hp, fun {o order} ho => ?_⟩
  obtain ⟨order₀, ho₀, -, -, hcarrier⟩ := hp.order_of_apply ho
  rw [hcarrier]
  split
  · next heq =>
    have hok : o = k := by simpa using heq
    exact ⟨fun h => absurd h hc, fun h => by omega⟩
  · next hne =>
    have hok : o ≠ k := fun heq => hne (by rw [heq])
    rw [h.carrier ho₀]
    omega

/-- **What a step does to the queue**: what it takes is the head. The pipeline stays in order if
the carrier is one. -/
theorem Queue.step (h : db.Queue w d k n) {x : Txn F} {r : Reply F} (hs : DistrictStep w d x r db db') :
    ∃ k' n', k ≤ k' ∧ n ≤ n' ∧ x.taken w d r = idsFrom k k' ∧ db'.Queue w d k' n' ∧
      (x.Carries → db.Pipeline w d k n → db'.Pipeline w d k' n') := by
  cases hs with
  | quiet htaken hsame =>
    exact ⟨k, n, le_rfl, le_rfl, by rw [htaken, idsFrom_self], h.congr hsame, fun _ hp => hp.congr hsame⟩
  | place hx hr htaken hp hsame =>
    exact ⟨k, n + 1, le_rfl, by omega, by rw [htaken, idsFrom_self], (h.place hp).2.congr hsame,
      fun _ hpipe => (hpipe.place hp).congr hsame⟩
  | @ship carrierId now o p db₁ hx htaken hold hbefore hk hp hafter =>
    obtain ⟨rfl, hlt⟩ := h.oldest_eq_some hold
    subst hx
    refine ⟨o + 1, n, by omega, le_rfl, ?_, ((h.congr hbefore).ship hk hlt hp).congr hafter, fun hc hpipe => ?_⟩
    · rw [htaken, idsFrom_succ le_rfl, idsFrom_self, List.nil_append]
    · have hc : 1 ≤ carrierId := hc
      have hne : carrierId ≠ Order.nullCarrierId := by
        simp only [Order.nullCarrierId]
        omega
      exact ((hpipe.congr hbefore).ship hk hlt hne hp).congr hafter

theorem Pipeline.step (h : db.Pipeline w d k n) {x : Txn F} {r : Reply F} (hc : x.Carries)
    (hs : DistrictStep w d x r db db') :
    ∃ k' n', k ≤ k' ∧ n ≤ n' ∧ x.taken w d r = idsFrom k k' ∧ db'.Pipeline w d k' n' := by
  obtain ⟨k', n', hk, hn, htaken, -, hp⟩ := h.toQueue.step hs
  exact ⟨k', n', hk, hn, htaken, hp hc h⟩

/-! ### The next delivery -/

/-- **What a delivery needs is there.** -/
theorem Pipeline.exists_shipment (h : db.Pipeline w d k n) (hlt : k < n) {now : List Char}
    (hnow : now.length = datetimeSize) : ∃ p : Shipment F, p.Valid w d k now db := by
  obtain ⟨order, ho⟩ := Option.isSome_iff_exists.mp ((h.order k).mpr ⟨h.bounds.1, hlt⟩)
  obtain ⟨cust, hcust⟩ := Option.isSome_iff_exists.mp (h.customer ho)
  have hline : ∀ i : ℕ, i < order.oOlCnt.toNat →
      ∃ line, db.row .orderLine (w, d, k, (i : ℤ) + 1) = some line := fun i hi =>
    Option.isSome_iff_exists.mp ((h.line ho _).mpr (by omega))
  have hdate : CString.strcpy datetimeSize now = some ⟨now, hnow.le⟩ := dif_pos hnow.le
  let line (i : ℕ) : OrderLine F := if hi : i < order.oOlCnt.toNat then (hline i hi).choose else
    ⟨0, 0, 0, 0, 0, 0, 0, 0, .empty, .empty⟩
  refine ⟨⟨order, line, cust, ⟨now, hnow.le⟩⟩, ho, (h.carrier ho).mpr le_rfl, fun i hi => ?_, hcust⟩
  have hi : i < order.oOlCnt.toNat := hi
  have hrow : db.row .orderLine (w, d, k, (i : ℤ) + 1) = some (line i) := by
    simp only [line, dif_pos hi]
    exact (hline i hi).choose_spec
  exact ⟨hrow, (h.deliveryD hrow).mpr le_rfl, hdate, hnow⟩

omit [Money F] in
/-- **A district that is not there**: it has no queue. -/
structure Unused (db : Db F) (w d : ℤ) : Prop where
  district : db.row .district (w, d) = none
  newOrder (o : ℤ) : db.row .newOrder (w, d, o) = none

omit [Money F] in
theorem Unused.congr (h : db.Unused w d) (hs : SameOrders w d db db') : db'.Unused w d where
  district := by
    have hnext := hs.nextOId
    rw [h.district] at hnext
    exact Option.map_eq_none_iff.mp hnext
  newOrder o := (hs.newOrder o).trans (h.newOrder o)

omit [Money F] in
theorem Unused.oldest (h : db.Unused w d) : db.oldest w d = none :=
  oldest_eq_none.mpr fun o ho => by
    have := ho.1
    rw [h.newOrder] at this
    exact absurd this (by simp)

theorem Unused.step (h : db.Unused w d) {x : Txn F} {r : Reply F} (hs : DistrictStep w d x r db db') :
    db'.Unused w d := by
  cases hs with
  | quiet _ hsame => exact h.congr hsame
  | place _ _ _ hp _ => exact absurd (hp.district.symm.trans h.district) (by simp)
  | ship _ _ hold => exact absurd (h.oldest.symm.trans hold) (by simp)

omit [Money F] in
/-- A district that is in order, or not there. -/
def Orderly (db : Db F) (w d : ℤ) : Prop := (∃ k n, db.Pipeline w d k n) ∨ db.Unused w d

omit [Money F] in
theorem Orderly.congr (h : db.Orderly w d) (hs : SameOrders w d db db') : db'.Orderly w d :=
  h.imp (fun ⟨k, n, hp⟩ => ⟨k, n, hp.congr hs⟩) fun hu => hu.congr hs

theorem Orderly.step (h : db.Orderly w d) {x : Txn F} {r : Reply F} (hc : x.Carries)
    (hs : DistrictStep w d x r db db') : db'.Orderly w d := by
  rcases h with ⟨k, n, hp⟩ | hu
  · obtain ⟨k', n', -, -, -, hp'⟩ := hp.step hc hs
    exact Or.inl ⟨k', n', hp'⟩
  · exact Or.inr (hu.step hs)

/-- **A delivery does not fail** when the districts are in order. -/
theorem exists_ships {ds : List ℤ} (hnd : ds.Nodup) (hk : db.Keyed) (h : ∀ d ∈ ds, db.Orderly w d) (carrierId : ℤ)
    {now : List Char} (hnow : now.length = datetimeSize) : ∃ orders db', Ships w carrierId now ds db orders db' := by
  induction ds generalizing db with
  | nil => exact ⟨[], db, Ships.nil⟩
  | cons d ds ih =>
    obtain ⟨hd, hnd⟩ := List.nodup_cons.mp hnd
    obtain ⟨horderly, h⟩ := List.forall_mem_cons.mp h
    by_cases hold : db.oldest w d = none
    · obtain ⟨orders, db', hships⟩ := ih hnd hk h
      exact ⟨orders, db', Ships.skip hold hships⟩
    · obtain ⟨o, hold⟩ := Option.ne_none_iff_exists'.mp hold
      rcases horderly with ⟨k, n, hp⟩ | hu
      · obtain ⟨rfl, hlt⟩ := hp.oldest_eq_some hold
        obtain ⟨p, hvalid⟩ := hp.exists_shipment hlt hnow
        obtain ⟨orders, db', hships⟩ := ih hnd (hvalid.keyed hk) fun d' hd' =>
          (h d' hd').congr (SameDistrict.shipped hvalid hk fun heq => hd ((Prod.mk.inj heq).2 ▸ hd')).toSameOrders
        exact ⟨_, db', Ships.ship hold hvalid hships⟩
      · exact absurd (hu.oldest.symm.trans hold) (by simp)

end Db

/-! ### Runs -/

section Runs

variable [Money F] {t t' : Tables F} {calls : List (Txn F × Option HashOrder)} {replies : List (Reply F)} {w d k n : ℤ}

/-- The orders that a run has delivered in a district, in their order. -/
def takenAll (w d : ℤ) (calls : List (Txn F × Option HashOrder)) (replies : List (Reply F)) : List ℤ :=
  (calls.zip replies).flatMap fun e => e.1.1.taken w d e.2

omit [Money F] in
theorem idsFrom_append {k k' k'' : ℤ} (h : k ≤ k') (h' : k' ≤ k'') : idsFrom k k' ++ idsFrom k' k'' = idsFrom k k'' := by
  induction k'', h' using Int.leInduction with
  | base => rw [idsFrom_self, List.append_nil]
  | succ m hm ih => rw [idsFrom_succ hm, idsFrom_succ (h.trans hm), ← ih, List.append_assoc]

/-- **A run of committed calls**, on the database. -/
theorem commitAll_induction {I : List (Txn F × Option HashOrder) → List (Reply F) → Db F → Prop} (ht : t.Sound)
    (h₀ : I [] [] t.db)
    (hstep : ∀ done dones e r db db', e ∈ calls → db.Keyed → I done dones db → Db.Step e.1 r db db' →
      I (done ++ [e]) (dones ++ [r]) db')
    (h : commitAll calls t = some (replies, t')) : t'.Sound ∧ I calls replies t'.db := by
  have hloop : ∀ done, (∀ e ∈ done, e ∈ calls) → ∀ replies t', commitAll done t = some (replies, t') →
      t'.Sound ∧ I done replies t'.db := by
    intro done
    induction done using List.reverseRecOn with
    | nil =>
      intro _ replies t' h
      obtain ⟨rfl, rfl⟩ : [] = replies ∧ t = t' := Prod.mk.inj (Option.some.inj h)
      exact ⟨ht, h₀⟩
    | append_singleton done e ih =>
      intro hin replies t' h
      rw [commitAll, mapM_snoc_apply] at h
      obtain ⟨⟨dones, t₁⟩, hdone, h⟩ := Option.bind_eq_some_iff.mp h
      obtain ⟨⟨r, t₂⟩, hone, heq⟩ := Option.map_eq_some_iff.mp h
      obtain ⟨rfl, rfl⟩ := Prod.mk.inj heq
      obtain ⟨ht₁, hI⟩ := ih (fun e' he' => hin e' (List.mem_append_left _ he')) dones t₁ hdone
      obtain ⟨ht₂, hs⟩ := Txn.commit_step ht₁ hone
      exact ⟨ht₂, hstep _ _ _ _ _ _ (hin e (by simp)) ht₁.keyed hI hs⟩
  exact hloop calls (fun _ he => he) replies t' h

omit [Money F] in
theorem takenAll_snoc {e : Txn F × Option HashOrder} {r : Reply F} (hlen : calls.length = replies.length) :
    takenAll w d (calls ++ [e]) (replies ++ [r]) = takenAll w d calls replies ++ e.1.taken w d r := by
  rw [takenAll, List.zip_append hlen, List.flatMap_append]
  simp [takenAll]

/-- **The pipeline is in order after every run**, and what was delivered are consecutive ids. -/
theorem pipeline_of_run (ht : t.Sound) (hcalls : ∀ e ∈ calls, e.1.Carries) (hd : d ∈ Tx.districtIds)
    (hp : t.db.Pipeline w d k n) (h : commitAll calls t = some (replies, t')) :
    t'.Sound ∧ ∃ k' n', k ≤ k' ∧ n ≤ n' ∧ takenAll w d calls replies = idsFrom k k' ∧ t'.db.Pipeline w d k' n' := by
  have hrun := commitAll_induction (I := fun calls replies db => calls.length = replies.length ∧
    ∃ k' n', k ≤ k' ∧ n ≤ n' ∧ takenAll w d calls replies = idsFrom k k' ∧ db.Pipeline w d k' n') ht
    ⟨rfl, k, n, le_rfl, le_rfl, by rw [idsFrom_self]; rfl, hp⟩ ?_ h
  · exact ⟨hrun.1, hrun.2.2⟩
  · rintro done dones e r db db' he hk ⟨hlen, k', n', hk', hn', htaken, hp'⟩ hs
    obtain ⟨k'', n'', hk'', hn'', htaken', hp''⟩ := hp'.step (hcalls e he) (hs.at hk w hd)
    refine ⟨by simp [hlen], k'', n'', hk'.trans hk'', hn'.trans hn'', ?_, hp''⟩
    rw [takenAll_snoc hlen, htaken, htaken', idsFrom_append hk' hk'']

/-- Every district stays in order, or stays away. -/
theorem orderly_of_run (ht : t.Sound) (hcalls : ∀ e ∈ calls, e.1.Carries) (hd : d ∈ Tx.districtIds)
    (ho : t.db.Orderly w d) (h : commitAll calls t = some (replies, t')) : t'.db.Orderly w d :=
  (commitAll_induction (I := fun _ _ db => db.Orderly w d) ht ho
    (fun _ _ e _ _ _ he hk hI hs => hI.step (hcalls e he) (hs.at hk w hd)) h).2

/-- **A delivery call**: it takes the head of each queue, in the order of the districts. -/
theorem commit_delivery (ht : t.Sound) (hw : validWarehouse w) (ho : ∀ d ∈ Tx.districtIds, t.db.Orderly w d)
    {carrierId : ℤ} (hc : 1 ≤ carrierId) {now : List Char} (hnow : now.length = datetimeSize) (free : Option HashOrder) :
    ∃ orders t', (Txn.delivery w carrierId now).reply.commit free t = some (.delivery orders, t') ∧
      (orders.map DeliveryOrderInfo.dId).Pairwise (· < ·) ∧
      ∀ d ∈ Tx.districtIds, ∀ k n, t.db.Pipeline w d k n →
        (orders.filter fun info => info.dId = d) = (if k < n then [⟨d, k⟩] else []) ∧
          t'.db.Pipeline w d (if k < n then k + 1 else k) n := by
  obtain ⟨orders, db', hships⟩ := Db.exists_ships (by decide) ht.keyed ho carrierId hnow
  have hrun := (Db.delivery_iff ht.keyed).mpr ⟨hw, hships⟩
  have hrel := ((delivery_refines w carrierId now).map Reply.delivery).commit
    (Txn.reply_journaled (.delivery w carrierId now : Txn F)) ht free
  rw [bind_apply, hrun] at hrel
  generalize hcommit : Tx.commit free _ t = r at hrel
  cases hrel with
  | @some r _ hr =>
    obtain ⟨r, t'⟩ := r
    obtain ⟨hr, -, hdb⟩ := hr
    obtain rfl : r = .delivery orders := hr
    obtain rfl : t'.db = db' := hdb
    refine ⟨orders, t', hcommit, List.Pairwise.sublist hships.reported (by decide), fun d hd k n hp => ?_⟩
    rcases hships.at ht.keyed (by decide) hd with ⟨hnone, hnil, hsame⟩ | ⟨o, p, db₁, hold, hone, hbefore, hk₁, hp₁, hafter⟩
    · have heq := hp.oldest_eq_none.mp hnone
      rw [if_neg (by omega), if_neg (by omega)]
      exact ⟨hnil, hp.congr hsame.toSameOrders⟩
    · obtain ⟨rfl, hlt⟩ := hp.oldest_eq_some hold
      rw [if_pos hlt, if_pos hlt]
      have hne : carrierId ≠ Order.nullCarrierId := by
        simp only [Order.nullCarrierId]
        omega
      exact ⟨hone, ((hp.congr hbefore.toSameOrders).ship hk₁ hlt hne hp₁).congr hafter.toSameOrders⟩

end Runs

end TpccBench
