import TpccBench.Db.Brand
import TpccBench.Db.Undone

/-!
# The order book of a district

What was ordered, by whom and for how much: the orders of a district without their deliveries
(`TpccBench.Db.book`). Only new orders write it, each at the id it reports, which is a new one.
So after a run the book is the one before it, with an entry for each order that has been placed and
not undone (`TpccBench.Db.Ran.book`).
-/

namespace TpccBench

open Prog

variable {F : Type}

/-! ### The id that is reported -/

theorem newOrderCombine_oId {qs : List ℤ} {output out : NewOrderOutput F} (h : newOrderCombine qs output = some out) :
    out.oId = output.oId := by
  obtain ⟨_, -, h⟩ := Option.bind_eq_some_iff.mp h
  obtain ⟨items, -, h⟩ := Option.bind_eq_some_iff.mp h
  obtain rfl := Option.some.inj h
  rfl

section Reported

variable [Money F] {w d c n : ℤ} {items : List NewOrderItem} {now : List Char} {output : NewOrderOutput F}

/-- The id of the next order of a district. -/
def Db.NextOId (w d n : ℤ) (db : Db F) : Prop := (db.row .district (w, d)).map District.dNextOId = some n

theorem newOrderHomeUncombined_oId :
    Triple (Db.NextOId w d n) (Db.newOrderHomeUncombined w d c items now output) fun r _ => r.2.oId = n := by
  intro db hnext r db' h
  rw [Db.newOrderHomeUncombined] at h
  obtain ⟨_, db₁, h₁, h⟩ := bind_eq_some h
  obtain ⟨-, rfl⟩ := Db.find_eq_some h₁
  obtain ⟨dist, db₂, h₂, h⟩ := bind_eq_some h
  obtain ⟨hdist, rfl⟩ := Db.get_eq_some h₂
  rw [Db.NextOId, hdist] at hnext
  obtain rfl : dist.dNextOId = n := Option.some.inj hnext
  -- nothing else is written to the id
  revert h
  refine (?_ : Triple (fun _ => True) _ fun r _ => r.2.oId = dist.dNextOId) db trivial r db'
  refine Triple.last fun _ => Triple.last fun _ => Triple.last fun _ => Triple.last fun _ => ?_
  refine Triple.last fun _ => Triple.last fun tuples => ?_
  cases tuples with
  | none => exact Triple.pure fun _ _ => rfl
  | some tuples =>
    refine Triple.last fun _ => Triple.last fun _ => Triple.last fun _ => Triple.last fun _ => ?_
    refine Triple.last fun _ => Triple.last fun _ => Triple.last fun _ => Triple.last fun _ => Triple.last fun qs => ?_
    cases qs with
    | none => exact Triple.failure
    | some q => exact Triple.pure fun _ _ => rfl

theorem newOrderHome_oId :
    Triple (Db.NextOId w d n) (Db.newOrderHome w d c items now output) fun r _ => r.2.oId = n := by
  refine newOrderHomeUncombined_oId.bind fun r => ?_
  obtain ⟨qs, out⟩ := r
  cases qs with
  | none => exact Triple.pure fun _ h => h
  | some q =>
    refine (Triple.lift _).bind fun out' => Triple.pure fun _ h => ?_
    exact (newOrderCombine_oId h.1).trans h.2

omit [Money F] in
theorem newOrderRemotes_oId {remotes : List ℤ} :
    Triple (fun _ => output.oId = n) (Db.newOrderRemotes w items remotes output) fun out _ => out.oId = n := by
  refine Triple.foldlM (I := fun _ out _ => out.oId = n) (fun out remote _ => ?_) remotes output
  refine (Triple.bind (Q := fun _ _ => out.oId = n) (fun _ h _ _ _ => h) fun qs => ?_)
  cases qs with
  | none => exact Triple.failure
  | some q => exact (Triple.lift _).post fun out' _ h => (newOrderCombine_oId h.1).trans h.2

theorem newOrder_oId {o : HashOrder} :
    Triple (Db.NextOId w d n) (Db.newOrder o w d c items now output) fun r _ => r.2.oId = n := by
  refine newOrderHome_oId.bind fun r => ?_
  obtain ⟨result, out⟩ := r
  cases result with
  | false => exact Triple.pure fun _ h => h
  | true => exact newOrderRemotes_oId.bind fun out' => Triple.pure fun _ h => h

/-- **The id that an order reports** is the next one of its district. -/
theorem Txn.Places.oId {x : Txn F} (hx : x.Places w d c items) {y : Dx F (Reply F)} (hon : x.OnDb y) {db db' : Db F}
    {result : Bool} {out : NewOrderOutput F} (hy : y db = some (.newOrder result out, db')) (hn : db.NextOId w d n) :
    out.oId = n := by
  cases hx with
  | newOrder o now output =>
    cases hon with
    | newOrder =>
      obtain ⟨⟨result', out'⟩, db₁, hrun, hret⟩ := bind_eq_some hy
      obtain ⟨heq, rfl⟩ := Prod.mk.inj (Option.some.inj hret)
      obtain ⟨rfl, rfl⟩ := Reply.newOrder.inj heq
      exact newOrder_oId db hn _ _ hrun
  | newOrderHome now output =>
    cases hon with
    | newOrderHome =>
      obtain ⟨⟨result', out'⟩, db₁, hrun, hret⟩ := bind_eq_some hy
      obtain ⟨heq, rfl⟩ := Prod.mk.inj (Option.some.inj hret)
      obtain ⟨rfl, rfl⟩ := Reply.newOrder.inj heq
      exact newOrderHome_oId db hn _ _ hrun

/-- The reply of a new order. -/
theorem Txn.Places.reply {x : Txn F} (hx : x.Places w d c items) {y : Dx F (Reply F)} (hon : x.OnDb y) {db db' : Db F}
    {r : Reply F} (hy : y db = some (r, db')) : ∃ result out, r = .newOrder result out := by
  cases hx with
  | newOrder =>
    cases hon with
    | newOrder =>
      obtain ⟨a, db₁, -, hret⟩ := bind_eq_some hy
      exact ⟨_, _, (Prod.mk.inj (Option.some.inj hret)).1.symm⟩
  | newOrderHome =>
    cases hon with
    | newOrderHome =>
      obtain ⟨a, db₁, -, hret⟩ := bind_eq_some hy
      exact ⟨_, _, (Prod.mk.inj (Option.some.inj hret)).1.symm⟩

theorem Txn.Places.unique {x : Txn F} {c' : ℤ} {items' : List NewOrderItem} (hx : x.Places w d c items)
    (hx' : x.Places w d c' items') : c = c' ∧ items = items' := by
  cases hx <;> cases hx' <;> exact ⟨rfl, rfl⟩

end Reported

/-! ### The book -/

/-- A line of an order, but for its delivery. -/
structure GivenLine (F : Type) where
  olIId : ℤ
  olSupplyWId : ℤ
  olQuantity : ℤ
  olAmount : F

/-- An order, but for its delivery. -/
structure GivenOrder (F : Type) where
  oCId : ℤ
  oOlCnt : ℤ
  lines : List (Option (GivenLine F))

def OrderLine.given (ol : OrderLine F) : GivenLine F := ⟨ol.olIId, ol.olSupplyWId, ol.olQuantity, ol.olAmount⟩

/-- **The order book**: the orders of a district, with the lines that are there. -/
def Db.book (db : Db F) (w d o : ℤ) : Option (GivenOrder F) :=
  (db.row .order (w, d, o)).map fun order =>
    ⟨order.oCId, order.oOlCnt, (List.range order.oOlCnt.toNat).map fun i : ℕ =>
      (db.row .orderLine (w, d, o, (i : ℤ) + 1)).map OrderLine.given⟩

/-- What an order asks for: an amount is the price of the item, as often as it is ordered. -/
def NewOrderItem.given [Money F] (items : List (Item F)) (item : NewOrderItem) : GivenLine F :=
  ⟨item.iId, item.olSupplyWId, item.olQuantity,
    (item.olQuantity : F) * items[(item.iId - 1).toNat]?.elim 0 Item.iPrice⟩

def GivenOrder.ofItems [Money F] (items : List (Item F)) (c : ℤ) (ordered : List NewOrderItem) : GivenOrder F :=
  ⟨c, ordered.length, ordered.map fun item => some (item.given items)⟩

/-- **The order has been placed** by the transaction, with this id. -/
structure Done.Placed [Money F] (e : Done F) (w d c o : ℤ) (items : List NewOrderItem) : Prop where
  places : e.txn.Places w d c items
  reply : ∃ out, e.reply = .newOrder true out ∧ out.oId = o

namespace Db

variable {db db₀ db' : Db F} {w d c o k n : ℤ} {items : List NewOrderItem}

theorem SameOrders.book (h : SameOrders w d db db') : db'.book w d o = db.book w d o := by
  simp only [Db.book, h.order, h.orderLine]

variable [Money F]

/-- **An order is placed**: it is in the book. -/
theorem book_place {p : Placement F w d c items} (hp : p.Valid db) :
    (p.apply db).book w d o = if o = p.oId then some (.ofItems db.items c items) else db.book w d o := by
  rw [book, Placement.apply_order]
  by_cases ho : o = p.oId
  · subst ho
    rw [if_pos rfl, if_pos rfl, Option.map_some]
    have hcnt : p.order.oOlCnt.toNat = items.length := Int.toNat_natCast _
    refine congrArg (fun lines => some (GivenOrder.mk c items.length lines)) ?_
    rw [hcnt]
    refine List.ext_getElem (by simp) fun i hi hi' => ?_
    have hlt : i < items.length := by simpa using hi
    obtain ⟨s, tuple, olDistInfo, -, htuple, -, hrow⟩ := hp.line_at (List.getElem?_eq_getElem hlt)
    simp only [List.getElem_map, List.getElem_range, hrow, Option.map_some]
    simp only [OrderLine.given, OrderLine.placed, NewOrderItem.given, htuple, Option.elim_some]
  · have hne : (w, d, o) ≠ (w, d, p.oId) := fun heq => ho (by simpa using heq)
    rw [if_neg hne, if_neg ho, book]
    refine congrFun (congrArg Option.map (funext fun order => ?_)) _
    refine congrArg (GivenOrder.mk _ _) (List.map_congr_left fun i _ => ?_)
    rw [hp.apply_line_of_ne fun j _ heq => hne (by simp_all)]

/-- **An order is delivered**: what was ordered stays in the book. -/
theorem book_ship {p : Shipment F} {carrierId : ℤ} {now : List Char} {o' : ℤ} (hp : p.Valid w d o' now db)
    (hk : db.Keyed) : (p.apply w d o' carrierId db).book w d o = db.book w d o := by
  have hline : ∀ id, ((p.apply w d o' carrierId db).row .orderLine id).map OrderLine.given =
      (db.row .orderLine id).map OrderLine.given := fun id => by
    by_cases hid : ∃ i < p.order.oOlCnt.toNat, id = (w, d, o', (i : ℤ) + 1)
    · obtain ⟨i, hi, rfl⟩ := hid
      rw [hp.apply_line hk hi, (hp.line i hi).1]
      rfl
    · rw [hp.apply_line_of_ne hk fun i hi heq => hid ⟨i, hi, heq⟩]
  simp only [book, hline]
  rw [Shipment.apply_order]
  split
  · next heq =>
    rw [heq, hp.order]
    rfl
  · rfl

/-- **A step writes the book** if it places an order in the district, and only then. -/
theorem book_step {x : Txn F} {r : Reply F} (hs : Step x r db db') (hk : db.Keyed) (hd : d ∈ Tx.districtIds)
    (hx : ∀ c items, x.Places w d c items → r.committed = false) : db'.book w d o = db.book w d o := by
  cases hs.at hk w hd with
  | quiet _ hsame => exact hsame.book
  | place hplaces hr _ _ _ => exact absurd (hr.symm.trans (hx _ _ hplaces)) (by decide)
  | ship _ _ _ hbefore hk₁ hp hafter => rw [hafter.book, book_ship hp hk₁, hbefore.book]

/-! ### The book after a run -/

variable {ds : List (Done F)} {k₀ n₀ : ℤ}

theorem Ran.sameItems (h : Ran db₀ ds db) : db.items = db₀.items := by
  induction h with
  | nil => rfl
  | cons _ hk hon hy ih => exact (step_of_onDb hon hk hy).sameTexts.items.trans ih

/-- **The pipeline after a run**, and what has been delivered. -/
theorem Ran.pipeline (h : Ran db₀ ds db) (hp : db₀.Pipeline w d k₀ n₀) (hd : d ∈ Tx.districtIds)
    (hcarries : ∀ e ∈ ds, e.txn.Carries) :
    ∃ k n, k₀ ≤ k ∧ n₀ ≤ n ∧ db.Pipeline w d k n ∧
      ∀ o, (∃ e ∈ ds, o ∈ e.txn.taken w d e.reply) ↔ k₀ ≤ o ∧ o < k := by
  induction h with
  | nil => exact ⟨k₀, n₀, le_rfl, le_rfl, hp, fun o => ⟨fun ⟨_, he, _⟩ => absurd he List.not_mem_nil, by omega⟩⟩
  | cons _ hk hon hy ih =>
    obtain ⟨he, hcarries⟩ := List.forall_mem_cons.mp hcarries
    obtain ⟨k, n, hkk, hnn, hpipe, htaken⟩ := ih hcarries
    obtain ⟨k', n', hk', hn', htaken', hpipe'⟩ := hpipe.step he ((step_of_onDb hon hk hy).at hk w hd)
    refine ⟨k', n', hkk.trans hk', hnn.trans hn', hpipe', fun o => ?_⟩
    have hmem := htaken o
    simp only [List.mem_cons, exists_eq_or_imp, htaken', mem_idsFrom, hmem]
    omega

/-- **What the book has become** since the district had the orders below `n₀`. -/
structure Filed (db₀ : Db F) (w d n₀ : ℤ) (ds : List (Done F)) (db : Db F) : Prop where
  old (o : ℤ) : o < n₀ → db.book w d o = db₀.book w d o
  placed {e : Done F} {c o : ℤ} {items : List NewOrderItem} : e ∈ ds → e.Placed w d c o items →
    n₀ ≤ o ∧ db.book w d o = some (.ofItems db₀.items c items)
  only {o : ℤ} : n₀ ≤ o → (db.book w d o).isSome → ∃ e ∈ ds, ∃ c items, e.Placed w d c o items

omit [Money F] in
/-- The ids of the book. -/
theorem Queue.book_isSome (h : db.Queue w d k n) : (db.book w d o).isSome ↔ 1 ≤ o ∧ o < n := by
  rw [book, Option.isSome_map, h.order]

omit [Money F] in
/-- **The last order of a customer** who has one in the book. -/
theorem Queue.exists_last (h : db.Queue w d k n) {c : ℤ}
    (howns : ∃ o order, db.book w d o = some order ∧ order.oCId = c) :
    ∃ o order, db.book w d o = some order ∧ order.oCId = c ∧ o < n ∧
      ∀ o' order', db.book w d o' = some order' → order'.oCId = c → o' ≤ o := by
  have hlt : ∀ o order, db.book w d o = some order → o < n := fun o order hbook =>
    (h.book_isSome.mp (Option.isSome_of_eq_some hbook)).2
  obtain ⟨o, ⟨order, hbook, hcid⟩, hlast⟩ := Int.exists_greatest_of_bdd
    (P := fun o => ∃ order, db.book w d o = some order ∧ order.oCId = c)
    ⟨n, fun o ⟨order, hbook, _⟩ => (hlt o order hbook).le⟩ howns
  exact ⟨o, order, hbook, hcid, hlt o order hbook, fun o' order' hbook' hcid' => hlast o' ⟨order', hbook', hcid'⟩⟩

/-- **The book after a run**: what was there, and an entry for each order that was placed. -/
theorem Ran.filed (h : Ran db₀ ds db) (hp : db₀.Pipeline w d k₀ n₀) (hd : d ∈ Tx.districtIds)
    (hcarries : ∀ e ∈ ds, e.txn.Carries) : Filed db₀ w d n₀ ds db := by
  induction h with
  | nil =>
    refine ⟨fun _ _ => rfl, fun he => absurd he List.not_mem_nil, fun {o} ho hsome => ?_⟩
    have := hp.toQueue.book_isSome.mp hsome
    omega
  | @cons ds db db' e y hran hk hon hy ih =>
    obtain ⟨he, hcarries⟩ := List.forall_mem_cons.mp hcarries
    obtain ⟨k, n, -, hn, hpipe, -⟩ := hran.pipeline hp hd hcarries
    have hfiled := ih hcarries
    by_cases hplace : ∃ c items, e.txn.Places w d c items ∧ e.reply.committed = true
    · obtain ⟨c, items, hplaces, hr⟩ := hplace
      obtain ⟨result, out, hreply⟩ := hplaces.reply hon hy
      have hresult : result = true := by rwa [hreply] at hr
      subst hresult
      have hout : out.oId = n := hplaces.oId hon (hreply ▸ hy) hpipe.nextOId
      rcases hplaces.onDb hon hk hy with ⟨hfalse, -⟩ | ⟨-, p, ls, hvalid, rfl⟩
      · exact absurd (hr.symm.trans hfalse) (by decide)
      have hid : p.oId = n := (hpipe.toQueue.place hvalid).1
      have hbook : ∀ o, ((p.apply db).takeStock ls).book w d o =
          if o = n then some (.ofItems db₀.items c items) else db.book w d o := fun o => by
        rw [(SameOrders.takeStock ls).book, book_place hvalid, hid, hran.sameItems]
      refine ⟨fun o ho => ?_, fun {e' c' o items'} he' hplaced => ?_, fun {o} ho hsome => ?_⟩
      · rw [hbook, if_neg (by omega)]
        exact hfiled.old o ho
      · rcases List.mem_cons.mp he' with rfl | he'
        · obtain ⟨rfl, rfl⟩ := hplaces.unique hplaced.places
          obtain ⟨out', hreply', rfl⟩ := hplaced.reply
          obtain ⟨-, rfl⟩ := Reply.newOrder.inj (hreply.symm.trans hreply')
          exact ⟨hout ▸ hn, by rw [hbook, if_pos hout]⟩
        · -- the orders before have other ids
          obtain ⟨hle, hold⟩ := hfiled.placed he' hplaced
          have hlt := (hpipe.toQueue.book_isSome (o := o)).mp (by rw [hold]; rfl)
          exact ⟨hle, by rw [hbook, if_neg (by omega), hold]⟩
      · rw [hbook] at hsome
        split at hsome
        · next heq => exact ⟨e, List.mem_cons_self, c, items, hplaces, out, hreply, hout.trans heq.symm⟩
        · obtain ⟨e', he', hrest⟩ := hfiled.only ho hsome
          exact ⟨e', List.mem_cons_of_mem _ he', hrest⟩
    · have hsame : ∀ o, db'.book w d o = db.book w d o := fun o =>
        book_step (step_of_onDb hon hk hy) hk hd fun c items hplaces => by
          by_contra hr
          exact hplace ⟨c, items, hplaces, by simpa using hr⟩
      have hnot : ∀ {c o items}, ¬e.Placed w d c o items := fun {c o items} hplaced => by
        obtain ⟨out, hr, -⟩ := hplaced.reply
        exact hplace ⟨c, items, hplaced.places, by rw [hr]; rfl⟩
      refine ⟨fun o ho => (hsame o).trans (hfiled.old o ho), fun {e' c o items} he' hplaced => ?_, fun {o} ho hsome => ?_⟩
      · rcases List.mem_cons.mp he' with rfl | he'
        · exact absurd hplaced hnot
        · rw [hsame]
          exact hfiled.placed he' hplaced
      · rw [hsame] at hsome
        obtain ⟨e', he', hrest⟩ := hfiled.only ho hsome
        exact ⟨e', List.mem_cons_of_mem _ he', hrest⟩

end Db

end TpccBench
