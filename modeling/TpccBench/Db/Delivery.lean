import TpccBench.Db.NewOrder

/-!
# What a delivery does

An order that is delivered leaves the queue, has a carrier, its lines have a date, and the
customer is credited with their amounts (`TpccBench.Db.deliverOrder_iff`). A delivery does this
with the oldest order of each district that has one, and the districts do not see each other
(`TpccBench.Db.delivery_iff`).
-/

namespace TpccBench

open Prog

variable {F : Type}

/-! ### One line -/

namespace Db

variable [Money F] {db db' : Db F} {w d o : ℤ} {now : List Char}

/-- A date as it is written on a line. -/
def Dated (now : List Char) (date : CString datetimeSize) : Prop :=
  CString.strcpy datetimeSize now = some date ∧ now.length = datetimeSize

theorem deliverLine_iff (hk : db.Keyed) {total : F} {i : ℕ} {r : F × Db F} :
    deliverLine w d o now total i db = some r ↔
      ∃ l date, db.row .orderLine (w, d, o, (i : ℤ) + 1) = some l ∧ l.olDeliveryD.chars = [] ∧ Dated now date ∧
        r = (total + l.olAmount, db.setRow .orderLine (w, d, o, (i : ℤ) + 1) (some (l.delivered date))) := by
  constructor
  · intro h
    obtain ⟨_, db₁, h₁, h⟩ := bind_eq_some h
    obtain ⟨-, rfl⟩ := find_eq_some h₁
    obtain ⟨l, db₂, h₂, h⟩ := bind_eq_some h
    obtain ⟨hl, rfl⟩ := get_eq_some h₂
    obtain ⟨_, db₃, h₃, h⟩ := bind_eq_some h
    obtain ⟨hempty, rfl⟩ := assert_eq_some h₃
    obtain ⟨date, db₄, h₄, h⟩ := bind_eq_some h
    obtain ⟨hdate, rfl⟩ := lift_eq_some h₄
    obtain ⟨_, db₅, h₅, h⟩ := bind_eq_some h
    obtain ⟨hlen, rfl⟩ := assert_eq_some h₅
    obtain ⟨_, db₆, h₆, hret⟩ := bind_eq_some h
    obtain rfl := set_eq_some h₆
    have hid : rowId .orderLine l = (w, d, o, (i : ℤ) + 1) := hk.ids hl
    have hid : rowId .orderLine (l.delivered date) = (w, d, o, (i : ℤ) + 1) := hid
    rw [hid] at hret
    exact ⟨l, date, hl, hempty, ⟨hdate, hlen⟩, (Option.some.inj hret).symm⟩
  · rintro ⟨l, date, hl, hempty, ⟨hdate, hlen⟩, rfl⟩
    have hid : rowId .orderLine l = (w, d, o, (i : ℤ) + 1) := hk.ids hl
    have hid : rowId .orderLine (l.delivered date) = (w, d, o, (i : ℤ) + 1) := hid
    rw [deliverLine, bind_apply, find_apply hk hl, Option.bind_some, bind_apply, get_apply hl, Option.bind_some,
      bind_apply, assert, if_pos hempty, Option.bind_some, bind_apply, lift_apply, hdate, Option.map_some,
      Option.bind_some, bind_apply, assert, if_pos hlen, Option.bind_some, bind_apply, set_apply hid]
    rfl

/-! ### All lines -/

/-- **The loop over the lines.** -/
theorem deliverLines_iff (hk : db.Keyed) {ns : List ℕ} (hnd : ns.Nodup) {total : F} {r : F × Db F} :
    ns.foldlM (deliverLine w d o now) total db = some r ↔
      ∃ (line : ℕ → OrderLine F) (date : CString datetimeSize),
        (∀ i ∈ ns, db.row .orderLine (w, d, o, (i : ℤ) + 1) = some (line i) ∧ (line i).olDeliveryD.chars = [] ∧
          Dated now date) ∧
        r = (ns.foldl (fun total i => total + (line i).olAmount) total,
          db.addRows .orderLine (ns.map fun i => (line i).delivered date)) := by
  induction ns generalizing db total with
  | nil =>
    rw [List.foldlM_nil]
    constructor
    · intro h
      exact ⟨fun _ => ⟨0, 0, 0, 0, 0, 0, 0, 0, .empty, .empty⟩, .empty, fun i hi => absurd hi List.not_mem_nil,
        (Option.some.inj h).symm⟩
    · rintro ⟨line, date, -, rfl⟩
      rfl
  | cons n ns ih =>
    obtain ⟨hn, hnd⟩ := List.nodup_cons.mp hnd
    have hid : ∀ {l : OrderLine F}, db.row .orderLine (w, d, o, (n : ℤ) + 1) = some l → ∀ date,
        rowId .orderLine (l.delivered date) = (w, d, o, (n : ℤ) + 1) := fun hl date => by
      have := hk.ids hl
      exact this
    have hk₁ : ∀ {l : OrderLine F}, db.row .orderLine (w, d, o, (n : ℤ) + 1) = some l → ∀ date,
        (db.setRow .orderLine (w, d, o, (n : ℤ) + 1) (some (l.delivered date))).Keyed := fun {l} hl date => by
      rw [← hid hl date]
      refine hk.setRow ?_
      rw [hid hl date]
      exact hk.keys hl
    -- the other lines are not written
    have hrow : ∀ (r : Option (OrderLine F)), ∀ i ∈ ns,
        (db.setRow .orderLine (w, d, o, (n : ℤ) + 1) r).row .orderLine (w, d, o, (i : ℤ) + 1) =
          db.row .orderLine (w, d, o, (i : ℤ) + 1) := fun r i hi => by
      rw [setRow_row, if_neg]
      rintro heq
      have hin : i = n := by simpa using heq
      exact hn (hin ▸ hi)
    rw [List.foldlM_cons]
    constructor
    · intro h
      obtain ⟨total₁, db₁, hone, h⟩ := bind_eq_some h
      obtain ⟨l, date, hl, hempty, hdate, heq⟩ := (deliverLine_iff hk).mp hone
      obtain ⟨rfl, rfl⟩ := Prod.mk.inj heq
      obtain ⟨line, date', hline, rfl⟩ := (ih (hk₁ hl date) hnd).mp h
      have hupd : ∀ i ∈ ns, Function.update line n l i = line i := fun i hi =>
        Function.update_of_ne (by rintro rfl; exact hn hi) _ _
      have hsame : ∀ i ∈ ns, date' = date := fun i hi =>
        Option.some.inj ((hline i hi).2.2.1.symm.trans hdate.1)
      refine ⟨Function.update line n l, date, List.forall_mem_cons.mpr ⟨?_, fun i hi => ?_⟩, ?_⟩
      · rw [Function.update_self]
        exact ⟨hl, hempty, hdate⟩
      · rw [hupd i hi, ← hrow _ i hi]
        exact ⟨(hline i hi).1, (hline i hi).2.1, hdate⟩
      · have hamounts : ns.foldl (fun total i => total + (Function.update line n l i).olAmount)
            (total + l.olAmount) = ns.foldl (fun total i => total + (line i).olAmount) (total + l.olAmount) :=
          List.foldl_ext _ _ _ fun t i hi => by rw [hupd i hi]
        have hlines : (ns.map fun i => (Function.update line n l i).delivered date) =
            ns.map fun i => (line i).delivered date' :=
          List.map_congr_left fun i hi => by rw [hupd i hi, hsame i hi]
        rw [List.foldl_cons, List.map_cons, Function.update_self, addRows_cons, hid hl date, hamounts, hlines]
    · rintro ⟨line, date, hline, rfl⟩
      obtain ⟨⟨hl, hempty, hdate⟩, hline⟩ := List.forall_mem_cons.mp hline
      rw [bind_apply, (deliverLine_iff hk).mpr ⟨line n, date, hl, hempty, hdate, rfl⟩, Option.bind_some]
      refine (ih (hk₁ hl date) hnd).mpr ⟨line, date, fun i hi => ?_, ?_⟩
      · rw [hrow _ i hi]
        exact hline i hi
      · rw [List.foldl_cons, List.map_cons, addRows_cons, hid hl date]

end Db

/-! ### One order -/

/-- What a delivery finds of an order: its row, its lines from the first on, and its customer. -/
structure Shipment (F : Type) where
  order : Order
  line : ℕ → OrderLine F
  cust : Customer F
  olDeliveryD : CString datetimeSize

namespace Shipment

/-- The lines that are delivered. -/
def lines (p : Shipment F) : List (OrderLine F) := (List.range p.order.oOlCnt.toNat).map p.line

/-- **What a delivery needs**: the rows it reads are there, and not delivered yet. -/
structure Valid (p : Shipment F) (w d o : ℤ) (now : List Char) (db : Db F) : Prop where
  order : db.row .order (w, d, o) = some p.order
  carrier : p.order.oCarrierId = Order.nullCarrierId
  line (i : ℕ) : i < p.order.oOlCnt.toNat →
    db.row .orderLine (w, d, o, (i : ℤ) + 1) = some (p.line i) ∧ (p.line i).olDeliveryD.chars = [] ∧
      Db.Dated now p.olDeliveryD
  customer : db.row .customer (w, d, p.order.oCId) = some p.cust

variable [Money F]

/-- The amounts of the lines. -/
def total (p : Shipment F) : F := p.lines.foldl (fun total l => total + l.olAmount) 0

/-- What a delivery does. -/
def apply (p : Shipment F) (w d o carrierId : ℤ) (db : Db F) : Db F :=
  (((db.setRow .newOrder (w, d, o) none).setRow .order (w, d, o) (some (p.order.delivered carrierId))).addRows
    .orderLine (p.lines.map (OrderLine.delivered p.olDeliveryD))).setRow .customer (w, d, p.order.oCId)
      (some (p.cust.delivered p.total))

variable {p : Shipment F} {w d o carrierId : ℤ} {now : List Char} {db : Db F}

@[simp] theorem apply_items : (p.apply w d o carrierId db).items = db.items := by simp [apply]

@[simp] theorem apply_history : (p.apply w d o carrierId db).history = db.history := by simp [apply]

theorem apply_row_of_ne {k : Kind} (h : k ∉ [Kind.newOrder, .order, .orderLine, .customer]) :
    (p.apply w d o carrierId db).row k = db.row k := by
  simp only [List.mem_cons, List.not_mem_nil, or_false, not_or] at h
  rw [apply, Db.setRow_row_of_ne _ h.2.2.2, Db.addRows_row_of_ne h.2.2.1, Db.setRow_row_of_ne _ h.2.1,
    Db.setRow_row_of_ne _ h.1]

theorem apply_newOrder (id : ℤ × ℤ × ℤ) : (p.apply w d o carrierId db).row .newOrder id =
    if id = (w, d, o) then none else db.row .newOrder id := by
  rw [apply, Db.setRow_row_of_ne _ (by simp), Db.addRows_row_of_ne (by simp), Db.setRow_row_of_ne _ (by simp),
    Db.setRow_row]

theorem apply_order (id : ℤ × ℤ × ℤ) : (p.apply w d o carrierId db).row .order id =
    if id = (w, d, o) then some (p.order.delivered carrierId) else db.row .order id := by
  rw [apply, Db.setRow_row_of_ne _ (by simp), Db.addRows_row_of_ne (by simp), Db.setRow_row,
    Db.setRow_row_of_ne _ (by simp)]

/-- The orders keep their customers and the numbers of their lines. -/
theorem Valid.order_of_apply (h : p.Valid w d o now db) {id : ℤ × ℤ × ℤ} {order : Order}
    (horder : (p.apply w d o carrierId db).row .order id = some order) :
    ∃ order₀, db.row .order id = some order₀ ∧ order.oCId = order₀.oCId ∧ order.oOlCnt = order₀.oOlCnt ∧
      order.oCarrierId = if id = (w, d, o) then carrierId else order₀.oCarrierId := by
  rw [apply_order] at horder
  split at horder
  · next heq =>
    obtain rfl := Option.some.inj horder
    subst heq
    exact ⟨p.order, h.order, rfl, rfl, by rw [if_pos rfl]; rfl⟩
  · next hne => exact ⟨order, horder, rfl, rfl, by rw [if_neg hne]⟩

theorem apply_customer (id : ℤ × ℤ × ℤ) : (p.apply w d o carrierId db).row .customer id =
    if id = (w, d, p.order.oCId) then some (p.cust.delivered p.total) else db.row .customer id := by
  rw [apply, Db.setRow_row, Db.addRows_row_of_ne (by simp), Db.setRow_row_of_ne _ (by simp),
    Db.setRow_row_of_ne _ (by simp)]

omit [Money F] in
/-- The lines have the ids of the order, and numbers from one on. -/
theorem Valid.line_id (h : p.Valid w d o now db) (hk : db.Keyed) {i : ℕ} (hi : i < p.order.oOlCnt.toNat) :
    rowId .orderLine ((p.line i).delivered p.olDeliveryD) = (w, d, o, (i : ℤ) + 1) := by
  have hid := hk.ids (h.line i hi).1
  exact hid

theorem apply_orderLine_eq : (p.apply w d o carrierId db).row .orderLine =
    (db.addRows .orderLine (p.lines.map (OrderLine.delivered p.olDeliveryD))).row .orderLine := by
  have haddRows : ∀ (ls : List (OrderLine F)) (db db' : Db F), db.row .orderLine = db'.row .orderLine →
      (db.addRows .orderLine ls).row .orderLine = (db'.addRows .orderLine ls).row .orderLine := by
    intro ls
    induction ls with
    | nil => exact fun db db' h => h
    | cons l ls ih =>
      intro db db' h
      rw [Db.addRows_cons, Db.addRows_cons]
      exact ih _ _ (funext fun id => by rw [Db.setRow_row, Db.setRow_row, h])
  rw [apply, Db.setRow_row_of_ne _ (by simp)]
  refine haddRows _ _ _ ?_
  rw [Db.setRow_row_of_ne _ (by simp), Db.setRow_row_of_ne _ (by simp)]

/-- **A line of the order** has a date now. -/
theorem Valid.apply_line (h : p.Valid w d o now db) (hk : db.Keyed) {i : ℕ} (hi : i < p.order.oOlCnt.toNat) :
    (p.apply w d o carrierId db).row .orderLine (w, d, o, (i : ℤ) + 1) =
      some ((p.line i).delivered p.olDeliveryD) := by
  rw [apply_orderLine_eq, ← h.line_id hk hi]
  refine Db.addRows_row_of_mem ?_ (List.mem_map.mpr ⟨p.line i, List.mem_map_of_mem (List.mem_range.mpr hi), rfl⟩)
  rw [lines, List.map_map, List.map_map]
  refine List.Nodup.map_on (fun i hi j hj hij => ?_) List.nodup_range
  have hij := (h.line_id hk (List.mem_range.mp hi)).symm.trans (hij.trans (h.line_id hk (List.mem_range.mp hj)))
  simpa using hij

/-- Other lines are what they were. -/
theorem Valid.apply_line_of_ne (h : p.Valid w d o now db) (hk : db.Keyed) {id : ℤ × ℤ × ℤ × ℤ}
    (hid : ∀ i < p.order.oOlCnt.toNat, id ≠ (w, d, o, (i : ℤ) + 1)) :
    (p.apply w d o carrierId db).row .orderLine id = db.row .orderLine id := by
  rw [apply_orderLine_eq, Db.addRows_row_of_not_mem]
  intro l hl heq
  obtain ⟨l₀, hl₀, rfl⟩ := List.mem_map.mp hl
  obtain ⟨i, hi, rfl⟩ := List.mem_map.mp hl₀
  exact hid i (List.mem_range.mp hi) (heq.symm.trans (h.line_id hk (List.mem_range.mp hi)))

end Shipment

namespace Db

variable [Money F] {db db' : Db F} {w d o carrierId : ℤ} {now : List Char}

/-- **`deliverOrder`.** -/
theorem deliverOrder_iff (hk : db.Keyed) {r : Option DeliveryOrderInfo × Db F} :
    deliverOrder w carrierId now d o db = some r ↔
      ∃ p : Shipment F, p.Valid w d o now db ∧ r = (some ⟨d, o⟩, p.apply w d o carrierId db) := by
  -- what is written first does not concern the lines and the customer
  have hline : ∀ (no : Option NewOrder) (order : Option Order) (id : ℤ × ℤ × ℤ × ℤ),
      ((db.setRow .newOrder (w, d, o) no).setRow .order (w, d, o) order).row .orderLine id =
        db.row .orderLine id := fun no order id => by
    rw [setRow_row_of_ne _ (by simp), setRow_row_of_ne _ (by simp)]
  have hcust : ∀ (no : Option NewOrder) (order : Option Order) (ls : List (OrderLine F)) (id : ℤ × ℤ × ℤ),
      (((db.setRow .newOrder (w, d, o) no).setRow .order (w, d, o) order).addRows .orderLine ls).row .customer id =
        db.row .customer id := fun no order ls id => by
    rw [addRows_row_of_ne (by simp), setRow_row_of_ne _ (by simp), setRow_row_of_ne _ (by simp)]
  have hkeyed : ∀ {order : Order}, db.row .order (w, d, o) = some order →
      rowId (F := F) .order (order.delivered carrierId) = (w, d, o) ∧
        ((db.setRow .newOrder (w, d, o) none).setRow .order (w, d, o) (some (order.delivered carrierId))).Keyed :=
      fun {order} horder => by
    have hid : rowId (F := F) .order order = (w, d, o) := hk.ids horder
    have hid : rowId (F := F) .order (order.delivered carrierId) = (w, d, o) := hid
    refine ⟨hid, ?_⟩
    have hset := (hk.remove (k := .newOrder) (w, d, o)).setRow (k := .order) (r := order.delivered carrierId)
      (by rw [hid]; exact hk.keys horder)
    rwa [hid] at hset
  constructor
  · intro h
    obtain ⟨_, db₁, h₁, h⟩ := bind_eq_some h
    obtain rfl := remove_eq_some h₁
    obtain ⟨_, db₂, h₂, h⟩ := bind_eq_some h
    obtain ⟨-, rfl⟩ := find_eq_some h₂
    obtain ⟨order, db₃, h₃, h⟩ := bind_eq_some h
    obtain ⟨horder, rfl⟩ := get_eq_some h₃
    rw [setRow_row_of_ne _ (by simp)] at horder
    obtain ⟨_, db₄, h₄, h⟩ := bind_eq_some h
    obtain ⟨hcarrier, rfl⟩ := assert_eq_some h₄
    obtain ⟨_, db₅, h₅, h⟩ := bind_eq_some h
    obtain rfl := set_eq_some h₅
    obtain ⟨hid, hk₁⟩ := hkeyed horder
    rw [hid] at h
    obtain ⟨total, db₆, h₆, h⟩ := bind_eq_some h
    obtain ⟨line, date, hlines, heq⟩ := (deliverLines_iff hk₁ List.nodup_range).mp h₆
    obtain ⟨rfl, rfl⟩ := Prod.mk.inj heq
    obtain ⟨_, db₇, h₇, h⟩ := bind_eq_some h
    obtain ⟨-, rfl⟩ := find_eq_some h₇
    obtain ⟨cust, db₈, h₈, h⟩ := bind_eq_some h
    obtain ⟨hcustomer, rfl⟩ := get_eq_some h₈
    rw [hcust] at hcustomer
    obtain ⟨_, db₉, h₉, hret⟩ := bind_eq_some h
    obtain rfl := set_eq_some h₉
    have hcid : rowId .customer cust = (w, d, order.oCId) := hk.ids hcustomer
    refine ⟨⟨order, line, cust, date⟩, ⟨horder, hcarrier, fun i hi => ?_, hcustomer⟩, ?_⟩
    · have hi := hlines i (List.mem_range.mpr hi)
      rwa [hline] at hi
    · rw [← Option.some.inj hret]
      have hcid : ∀ total : F, rowId .customer (cust.delivered total) = (w, d, order.oCId) := fun _ => hcid
      simp only [hcid, Shipment.apply, Shipment.total, Shipment.lines, List.map_map, List.foldl_map, Function.comp_def]
  · rintro ⟨p, hp, rfl⟩
    obtain ⟨hid, hk₁⟩ := hkeyed hp.order
    have horder : (db.setRow .newOrder (w, d, o) none).row .order (w, d, o) = some p.order := by
      rw [setRow_row_of_ne _ (by simp), hp.order]
    have hfind : find .order (w, d, o) (db.setRow .newOrder (w, d, o) none) =
        some ((), db.setRow .newOrder (w, d, o) none) := if_pos (hk.keys hp.order)
    have hfind' : ∀ db₂ : Db F, find .customer (w, d, p.order.oCId) db₂ = some ((), db₂) := fun _ =>
      if_pos (hk.keys hp.customer)
    have hlines : (List.range p.order.oOlCnt.toNat).foldlM (deliverLine w d o now) (0 : F) _ = some _ :=
      (deliverLines_iff hk₁ List.nodup_range).mpr
        ⟨p.line, p.olDeliveryD, fun i hi => by rw [hline]; exact hp.line i (List.mem_range.mp hi), rfl⟩
    have hcid : rowId .customer p.cust = (w, d, p.order.oCId) := hk.ids hp.customer
    have hcid : ∀ total : F, rowId .customer (p.cust.delivered total) = (w, d, p.order.oCId) := fun _ => hcid
    rw [deliverOrder, bind_apply, remove, Option.bind_some, bind_apply, hfind, Option.bind_some, bind_apply,
      get_apply horder, Option.bind_some, bind_apply, assert, if_pos hp.carrier, Option.bind_some, bind_apply,
      set_apply hid, Option.bind_some, bind_apply, hlines, Option.bind_some, bind_apply, hfind', Option.bind_some,
      bind_apply, get_apply ((hcust _ _ _ _).trans hp.customer), Option.bind_some, bind_apply, set_apply (hcid _)]
    simp only [Shipment.apply, Shipment.total, Shipment.lines, List.map_map, List.foldl_map, Function.comp_def]
    rfl

end Db

theorem Shipment.Valid.keyed [Money F] {p : Shipment F} {w d o carrierId : ℤ} {now : List Char} {db : Db F}
    (h : p.Valid w d o now db) (hk : db.Keyed) : (p.apply w d o carrierId db).Keyed := by
  have hid : rowId (F := F) .order p.order = (w, d, o) := hk.ids h.order
  have hid : rowId (F := F) .order (p.order.delivered carrierId) = (w, d, o) := hid
  have hcid : rowId .customer p.cust = (w, d, p.order.oCId) := hk.ids h.customer
  have hcid : rowId .customer (p.cust.delivered p.total) = (w, d, p.order.oCId) := hcid
  have hk₁ := (hk.remove (k := .newOrder) (w, d, o)).setRow (k := .order) (r := p.order.delivered carrierId)
    (by rw [hid]; exact hk.keys h.order)
  have hlines : ∀ r ∈ p.lines.map (OrderLine.delivered p.olDeliveryD),
      (primary .orderLine (rowId .orderLine r)).isSome := fun r hr => by
    obtain ⟨l, hl, rfl⟩ := List.mem_map.mp hr
    obtain ⟨i, hi, rfl⟩ := List.mem_map.mp hl
    rw [h.line_id hk (List.mem_range.mp hi)]
    exact hk.keys (h.line i (List.mem_range.mp hi)).1
  have hk₂ := hk₁.addRows (k := .orderLine) hlines
  have hk₃ := hk₂.setRow (k := .customer) (r := p.cust.delivered p.total) (by rw [hcid]; exact hk.keys h.customer)
  rwa [hid, hcid] at hk₃

/-! ### All districts -/

/-- **A delivery, district by district**: the oldest order of each that has one. -/
inductive Db.Ships [Money F] (w carrierId : ℤ) (now : List Char) :
    List ℤ → Db F → List DeliveryOrderInfo → Db F → Prop
  | nil {db} : Ships w carrierId now [] db [] db
  | skip {d ds db orders db'} : db.oldest w d = none → Ships w carrierId now ds db orders db' →
      Ships w carrierId now (d :: ds) db orders db'
  | ship {d ds db orders db' o} {p : Shipment F} : db.oldest w d = some o → p.Valid w d o now db →
      Ships w carrierId now ds (p.apply w d o carrierId db) orders db' →
      Ships w carrierId now (d :: ds) db (⟨d, o⟩ :: orders) db'

namespace Db

variable [Money F] {db db' : Db F} {w carrierId : ℤ} {now : List Char} {ds : List ℤ} {orders : List DeliveryOrderInfo}

theorem Ships.keyed (h : Ships w carrierId now ds db orders db') (hk : db.Keyed) : db'.Keyed := by
  induction h with
  | nil => exact hk
  | skip _ _ ih => exact ih hk
  | ship _ hp _ ih => exact ih (hp.keyed hk)

/-- One district. -/
theorem deliverDistrict_iff (hk : db.Keyed) {d : ℤ} {r : Option DeliveryOrderInfo × Db F} :
    deliverDistrict w carrierId now d db = some r ↔ validWarehouse w ∧ validDistrict d ∧
      (db.oldest w d = none ∧ r = (none, db) ∨
        ∃ o, ∃ p : Shipment F, db.oldest w d = some o ∧ p.Valid w d o now db ∧
          r = (some ⟨d, o⟩, p.apply w d o carrierId db)) := by
  have hone : (primary .newOrder (w, d, 1)).isSome ↔ validWarehouse w ∧ validDistrict d :=
    primary_newOrder_iff.trans ⟨fun h => ⟨h.1, h.2.1⟩, fun h => ⟨h.1, h.2, by decide⟩⟩
  have hget : (StateT.get : Dx F (Db F)) db = some (db, db) := rfl
  rw [deliverDistrict, bind_apply, find, ← and_assoc, ← hone]
  constructor
  · intro h
    obtain ⟨⟨_, db₁⟩, hfind, h⟩ := Option.bind_eq_some_iff.mp h
    obtain ⟨hkey, rfl⟩ := assert_eq_some hfind
    refine ⟨hkey, ?_⟩
    rw [bind_apply, hget, Option.bind_some] at h
    cases hold : db.oldest w d with
    | none =>
      rw [hold] at h
      exact Or.inl ⟨rfl, (Option.some.inj h).symm⟩
    | some o =>
      rw [hold] at h
      obtain ⟨p, hp, hr⟩ := (deliverOrder_iff hk).mp h
      exact Or.inr ⟨o, p, rfl, hp, hr⟩
  · rintro ⟨hkey, h⟩
    rw [assert, if_pos hkey, Option.bind_some, bind_apply, hget, Option.bind_some]
    rcases h with ⟨hold, rfl⟩ | ⟨o, p, hold, hp, rfl⟩
    · rw [hold]
      rfl
    · rw [hold]
      exact (deliverOrder_iff hk).mpr ⟨p, hp, rfl⟩

theorem deliverDistricts_iff (hk : db.Keyed) :
    (∃ rs, ds.mapM (deliverDistrict w carrierId now) db = some (rs, db') ∧ rs.reduceOption = orders) ↔
      (∀ d ∈ ds, validWarehouse w ∧ validDistrict d) ∧ Ships w carrierId now ds db orders db' := by
  induction ds generalizing db orders with
  | nil =>
    constructor
    · rintro ⟨rs, h, rfl⟩
      rw [List.mapM_nil] at h
      obtain ⟨rfl, rfl⟩ := Prod.mk.inj (Option.some.inj h)
      exact ⟨fun _ h => absurd h List.not_mem_nil, Ships.nil⟩
    · rintro ⟨-, h⟩
      cases h with
      | nil => exact ⟨[], rfl, rfl⟩
  | cons d ds ih =>
    rw [List.forall_mem_cons]
    constructor
    · rintro ⟨rs, h, rfl⟩
      rw [List.mapM_cons] at h
      obtain ⟨r, db₁, hone, h⟩ := bind_eq_some h
      obtain ⟨rs', db₂, hrest, hret⟩ := bind_eq_some h
      obtain ⟨rfl, rfl⟩ := Prod.mk.inj (Option.some.inj hret)
      obtain ⟨hw, hd, ⟨hold, heq⟩ | ⟨o, p, hold, hp, heq⟩⟩ := (deliverDistrict_iff hk).mp hone
      · obtain ⟨rfl, rfl⟩ := Prod.mk.inj heq
        obtain ⟨hvalid, hships⟩ := (ih hk).mp ⟨rs', hrest, rfl⟩
        exact ⟨⟨⟨hw, hd⟩, hvalid⟩, Ships.skip hold hships⟩
      · obtain ⟨rfl, rfl⟩ := Prod.mk.inj heq
        obtain ⟨hvalid, hships⟩ := (ih (hp.keyed hk)).mp ⟨rs', hrest, rfl⟩
        exact ⟨⟨⟨hw, hd⟩, hvalid⟩, Ships.ship hold hp hships⟩
    · rintro ⟨⟨⟨hw, hd⟩, hvalid⟩, h⟩
      rw [List.mapM_cons]
      cases h with
      | skip hold h =>
        obtain ⟨rs, hrun, hrs⟩ := (ih hk).mpr ⟨hvalid, h⟩
        refine ⟨none :: rs, ?_, by rw [← hrs]; rfl⟩
        rw [bind_apply, (deliverDistrict_iff hk).mpr ⟨hw, hd, Or.inl ⟨hold, rfl⟩⟩, Option.bind_some, bind_apply, hrun]
        rfl
      | ship hold hp h =>
        obtain ⟨rs, hrun, hrs⟩ := (ih (hp.keyed hk)).mpr ⟨hvalid, h⟩
        refine ⟨some _ :: rs, ?_, by rw [← hrs]; rfl⟩
        rw [bind_apply, (deliverDistrict_iff hk).mpr ⟨hw, hd, Or.inr ⟨_, _, hold, hp, rfl⟩⟩, Option.bind_some,
          bind_apply, hrun]
        rfl

/-- **`delivery`.** -/
theorem delivery_iff (hk : db.Keyed) :
    delivery w carrierId now db = some (orders, db') ↔
      validWarehouse w ∧ Ships w carrierId now Tx.districtIds db orders db' := by
  have hvalid : (∀ d ∈ Tx.districtIds, validWarehouse w ∧ validDistrict d) ↔ validWarehouse w := by
    simp [Tx.districtIds, validDistrict, District.numPerWarehouse]
  rw [← hvalid, ← deliverDistricts_iff hk]
  constructor
  · intro h
    obtain ⟨rs, db₁, hrun, hret⟩ := bind_eq_some h
    obtain ⟨rfl, rfl⟩ := Prod.mk.inj (Option.some.inj hret)
    exact ⟨rs, hrun, rfl⟩
  · rintro ⟨rs, hrun, rfl⟩
    rw [delivery, bind_apply, hrun]
    rfl

end Db

end TpccBench
