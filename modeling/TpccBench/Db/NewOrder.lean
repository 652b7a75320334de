import TpccBench.Db.Rules

/-!
# What a new order does

One description of all of it (`TpccBench.Db.Places`): the district counts on, an order, its
lines and a new-order row are added at the next id, where nothing was, and the lines that
are supplied here are taken from the stock. The other parts of a new order only take from
the stock (`TpccBench.Db.takeStock`).

What is taken from a stock row depends on the lines of that row only, in their order. So
the lines of different warehouses may be taken in any order of the warehouses.
-/

namespace TpccBench

open Prog

variable {F : Type}

/-! ### Stock -/

/-- A line of an order, with the home warehouse of the order. -/
abbrev SupplyLine := ℤ × NewOrderItem

/-- The stock row a line is supplied from. -/
def SupplyLine.source (l : SupplyLine) : ℤ × ℤ := (l.2.olSupplyWId, l.2.iId)

/-- A stock row after some lines were taken from it. -/
def Stock.orderedAll (ls : List SupplyLine) (s : Stock) : Stock :=
  ls.foldl (fun s l => s.ordered l.1 l.2) s

@[simp] theorem Stock.orderedAll_nil : Stock.orderedAll [] = id := rfl

theorem Stock.orderedAll_cons (l : SupplyLine) (ls : List SupplyLine) (s : Stock) :
    s.orderedAll (l :: ls) = (s.ordered l.1 l.2).orderedAll ls := rfl

theorem Stock.orderedAll_append (ls ls' : List SupplyLine) (s : Stock) :
    s.orderedAll (ls ++ ls') = (s.orderedAll ls).orderedAll ls' :=
  List.foldl_append

/-- The lines of a stock row. -/
def linesAt (id : ℤ × ℤ) (ls : List SupplyLine) : List SupplyLine :=
  ls.filter fun l => l.source = id

theorem linesAt_append (id : ℤ × ℤ) (ls ls' : List SupplyLine) :
    linesAt id (ls ++ ls') = linesAt id ls ++ linesAt id ls' :=
  List.filter_append _ _

namespace Db

variable {db db' : Db F}

/-- **Take lines from the stock.** -/
def takeStock (ls : List SupplyLine) (db : Db F) : Db F :=
  { db with
    row := Function.update db.row .stock fun id =>
      (db.row .stock id).map (Stock.orderedAll (linesAt id ls)) }

@[simp] theorem takeStock_items (ls : List SupplyLine) : (db.takeStock ls).items = db.items := rfl

@[simp] theorem takeStock_history (ls : List SupplyLine) : (db.takeStock ls).history = db.history := rfl

@[simp] theorem takeStock_stock (ls : List SupplyLine) (id : ℤ × ℤ) :
    (db.takeStock ls).row .stock id = (db.row .stock id).map (Stock.orderedAll (linesAt id ls)) := by
  simp [takeStock]

theorem takeStock_row_of_ne {k : Kind} (h : k ≠ .stock) (ls : List SupplyLine) :
    (db.takeStock ls).row k = db.row k := by
  simp [takeStock, h]

/-- Databases are the same when their stock and their other tables are. -/
theorem ext_stock (hitems : db.items = db'.items) (hhistory : db.history = db'.history)
    (hstock : ∀ id, db.row .stock id = db'.row .stock id)
    (hrow : ∀ k, k ≠ .stock → db.row k = db'.row k) : db = db' := by
  refine Db.ext hitems (funext fun k => ?_) hhistory
  by_cases hk : k = .stock
  · subst hk
    exact funext hstock
  · exact hrow k hk

/-- It only matters which lines are of which row, in which order. -/
theorem takeStock_congr {ls ls' : List SupplyLine} (h : ∀ id, linesAt id ls = linesAt id ls') :
    db.takeStock ls = db.takeStock ls' :=
  ext_stock rfl rfl (fun id => by rw [takeStock_stock, takeStock_stock, h]) fun k hk => by
    rw [takeStock_row_of_ne hk, takeStock_row_of_ne hk]

@[simp] theorem takeStock_nil : db.takeStock [] = db :=
  ext_stock rfl rfl (fun id => by simp [linesAt]) fun k hk => takeStock_row_of_ne hk _

theorem takeStock_takeStock (ls ls' : List SupplyLine) :
    (db.takeStock ls).takeStock ls' = db.takeStock (ls ++ ls') := by
  refine ext_stock rfl rfl (fun id => ?_) fun k hk => ?_
  · simp only [takeStock_stock, Option.map_map, linesAt_append]
    exact congrFun (congrArg Option.map (funext fun s => (Stock.orderedAll_append _ _ s).symm)) _
  · simp only [takeStock_row_of_ne hk]

/-- Writing one row back. -/
theorem setRow_stock_eq {l : SupplyLine} {s : Stock} (h : db.row .stock l.source = some s) :
    db.setRow .stock l.source (some (s.ordered l.1 l.2)) = db.takeStock [l] := by
  refine ext_stock rfl rfl (fun id => ?_) fun k hk => ?_
  · rw [setRow_row, takeStock_stock]
    by_cases hid : id = l.source
    · subst hid
      rw [if_pos rfl, h]
      simp [linesAt, Stock.orderedAll]
    · rw [if_neg hid]
      simp [linesAt, Ne.symm hid]
  · rw [setRow_row_of_ne _ hk, takeStock_row_of_ne hk]

theorem Keyed.takeStock (h : db.Keyed) (ls : List SupplyLine) : (db.takeStock ls).Keyed := by
  have hids : ∀ (ls : List SupplyLine) (s : Stock),
      ((s.orderedAll ls).sWId, (s.orderedAll ls).sIId) = (s.sWId, s.sIId) := by
    intro ls
    induction ls with
    | nil => exact fun s => rfl
    | cons l ls ih => exact fun s => (ih (s.ordered l.1 l.2)).trans rfl
  have hrow : ∀ {k : Kind} {id : RowId k} {r : Row F k}, (db.takeStock ls).row k id = some r →
      ∃ r₀, db.row k id = some r₀ ∧ rowId k r = rowId k r₀ := by
    intro k id r hr
    by_cases hk : k = .stock
    · subst hk
      rw [takeStock_stock] at hr
      obtain ⟨s, hs, rfl⟩ := Option.map_eq_some_iff.mp hr
      exact ⟨s, hs, hids _ s⟩
    · rw [takeStock_row_of_ne hk] at hr
      exact ⟨r, hr, rfl⟩
  refine ⟨fun hr => ?_, fun hr => ?_⟩
  · obtain ⟨r₀, hr₀, hid⟩ := hrow hr
    exact hid.trans (h.ids hr₀)
  · obtain ⟨r₀, hr₀, -⟩ := hrow hr
    exact h.keys hr₀

/-- The lines of an order that are supplied by a warehouse. -/
def supplied (homeWarehouse warehouse : ℤ) (items : List NewOrderItem) : List SupplyLine :=
  (items.filter fun item => item.olSupplyWId = warehouse).map fun item => (homeWarehouse, item)

/-- **One line.** -/
theorem updateStock_eq_some (hk : db.Keyed) {home remote : ℤ} {item : NewOrderItem} {q : ℤ}
    (h : updateStock home remote item db = some (q, db')) :
    db' = db.takeStock (supplied home remote [item]) ∧
      if item.olSupplyWId = remote then
        ∃ s, db'.row .stock (item.olSupplyWId, item.iId) = some s ∧ q = s.sQuantity
      else q = invalidQuantity := by
  rw [updateStock] at h
  split at h
  · next hother =>
    obtain ⟨rfl, rfl⟩ := Prod.mk.inj (Option.some.inj h)
    rw [if_neg hother]
    exact ⟨by simp [supplied, hother], rfl⟩
  · next hsame =>
    have hsame : item.olSupplyWId = remote := not_not.mp hsame
    obtain ⟨_, db₁, hfind, h⟩ := bind_eq_some h
    obtain ⟨-, rfl⟩ := find_eq_some hfind
    obtain ⟨s, db₂, hget, h⟩ := bind_eq_some h
    obtain ⟨hs, rfl⟩ := get_eq_some hget
    obtain ⟨_, db₃, hset, h⟩ := bind_eq_some h
    obtain rfl := set_eq_some hset
    obtain ⟨rfl, rfl⟩ := Prod.mk.inj (Option.some.inj h)
    have hid : rowId (F := F) .stock s = (item.olSupplyWId, item.iId) := hk.ids hs
    have hid : rowId (F := F) .stock (s.ordered home item) = (item.olSupplyWId, item.iId) := hid
    rw [if_pos hsame, hid]
    refine ⟨?_, s.ordered home item, setRow_row_same _, rfl⟩
    have htake := setRow_stock_eq (l := (home, item)) hs
    simpa [supplied, hsame, SupplyLine.source] using htake

theorem supplied_cons (home warehouse : ℤ) (item : NewOrderItem) (items : List NewOrderItem) :
    supplied home warehouse (item :: items) =
      supplied home warehouse [item] ++ supplied home warehouse items := by
  rw [supplied, supplied, supplied, ← List.map_append, ← List.filter_append, List.singleton_append]

/-- **The lines of one warehouse.** -/
theorem newOrderRemote_eq_some (hk : db.Keyed) {home remote : ℤ} {items : List NewOrderItem}
    {qs : Option (List ℤ)} (h : newOrderRemote home remote items db = some (qs, db')) :
    (qs = none ∧ db' = db) ∨
      ∃ q, qs = some q ∧ db' = db.takeStock (supplied home remote items) := by
  rw [newOrderRemote] at h
  obtain ⟨tuples, db₁, hfind, h⟩ := bind_eq_some h
  obtain ⟨rfl, -⟩ := findAndValidateItems_eq_some hfind
  cases tuples with
  | none =>
    obtain ⟨rfl, rfl⟩ := Prod.mk.inj (Option.some.inj h)
    exact Or.inl ⟨rfl, rfl⟩
  | some tuples =>
    obtain ⟨q, db₂, hloop, h⟩ := bind_eq_some h
    obtain ⟨rfl, rfl⟩ := Prod.mk.inj (Option.some.inj h)
    refine Or.inr ⟨q, rfl, ?_⟩
    -- the loop takes the lines that are done
    have hinv : Triple (fun db₁ : Db F => db₁.Keyed ∧ db₁.takeStock (supplied home remote items) =
          db.takeStock (supplied home remote items))
        (items.mapM (updateStock home remote)) fun _ db₁ => db₁ = db.takeStock (supplied home remote items) := by
      refine (Triple.mapM (J := fun _ _ => True) (I := fun l (db₁ : Db F) => db₁.Keyed ∧
        db₁.takeStock (supplied home remote l) = db.takeStock (supplied home remote items))
        (fun item l db₁ hI q' db₂ hrun => ?_) items).post ?_
      · obtain ⟨rfl, -⟩ := updateStock_eq_some hI.1 hrun
        refine ⟨trivial, hI.1.takeStock _, ?_⟩
        rw [takeStock_takeStock, ← supplied_cons]
        exact hI.2
      · rintro as db₁ ⟨-, -, hdb⟩
        rw [show supplied home remote [] = [] from rfl, takeStock_nil] at hdb
        exact hdb
    exact hinv db ⟨hk, rfl⟩ q _ hloop

/-! ### Order lines -/

/-- Insert rows. -/
def addRows (k : Kind) (rs : List (Row F k)) (db : Db F) : Db F :=
  rs.foldl (fun db r => db.setRow k (rowId k r) (some r)) db

section AddRows

variable {k : Kind} {rs : List (Row F k)}

theorem addRows_cons (r : Row F k) :
    addRows k (r :: rs) db = addRows k rs (db.setRow k (rowId k r) (some r)) := rfl

@[simp] theorem addRows_items : (addRows k rs db).items = db.items := by
  induction rs generalizing db with
  | nil => rfl
  | cons r rs ih => exact ih

@[simp] theorem addRows_history : (addRows k rs db).history = db.history := by
  induction rs generalizing db with
  | nil => rfl
  | cons r rs ih => exact ih

theorem addRows_row_of_ne {k' : Kind} (h : k' ≠ k) : (addRows k rs db).row k' = db.row k' := by
  induction rs generalizing db with
  | nil => rfl
  | cons r rs ih => exact ih.trans (setRow_row_of_ne db h)

theorem addRows_row_of_not_mem {id : RowId k} (h : ∀ r ∈ rs, rowId k r ≠ id) :
    (addRows k rs db).row k id = db.row k id := by
  induction rs generalizing db with
  | nil => rfl
  | cons r rs ih =>
    obtain ⟨hr, hrs⟩ := List.forall_mem_cons.mp h
    exact (ih hrs).trans ((setRow_row db id).trans (if_neg hr.symm))

theorem addRows_row_of_mem {r : Row F k} (hnd : (rs.map (rowId k)).Nodup) (h : r ∈ rs) :
    (addRows k rs db).row k (rowId k r) = some r := by
  induction rs generalizing db with
  | nil => exact absurd h List.not_mem_nil
  | cons r' rs ih =>
    obtain ⟨hr', hnd⟩ := List.nodup_cons.mp hnd
    rw [addRows_cons]
    rcases List.mem_cons.mp h with rfl | h
    · refine (addRows_row_of_not_mem fun r'' hr'' heq => hr' ?_).trans (setRow_row_same db)
      exact List.mem_map.mpr ⟨r'', hr'', heq⟩
    · exact ih hnd h

theorem Keyed.addRows (h : db.Keyed) (hrs : ∀ r ∈ rs, (primary k (rowId k r)).isSome) :
    (db.addRows k rs).Keyed := by
  induction rs generalizing db with
  | nil => exact h
  | cons r rs ih =>
    obtain ⟨hr, hrs⟩ := List.forall_mem_cons.mp hrs
    exact ih (h.setRow hr) hrs

end AddRows

/-- **One line.** -/
theorem addOrderLine_eq_some [Money F] {w d o : ℤ} {e : (NewOrderItem × Item F × ItemInfo F) × ℕ}
    {info : ItemInfo F} (h : addOrderLine w d o e db = some (info, db')) :
    ∃ s olDistInfo, db.row .stock (e.1.1.olSupplyWId, e.1.1.iId) = some s ∧
      s.distInfo d = some olDistInfo ∧ info = lineInfo s e.1 ∧
      let line := OrderLine.placed w d o (e.2 + 1) e.1.1 info.olAmount olDistInfo
      (rowLinks .orderLine line).isSome ∧ db.row .orderLine (w, d, o, e.2 + 1) = none ∧
        db' = db.setRow .orderLine (w, d, o, e.2 + 1) (some line) := by
  rw [addOrderLine] at h
  obtain ⟨_, db₁, hfind, h⟩ := bind_eq_some h
  obtain ⟨-, rfl⟩ := find_eq_some hfind
  obtain ⟨s, db₂, hget, h⟩ := bind_eq_some h
  obtain ⟨hs, rfl⟩ := get_eq_some hget
  obtain ⟨olDistInfo, db₃, hlift, h⟩ := bind_eq_some h
  obtain ⟨hdist, rfl⟩ := lift_eq_some hlift
  obtain ⟨_, db₄, hins, h⟩ := bind_eq_some h
  obtain ⟨hlinks, hnone, rfl⟩ := insert_eq_some hins
  obtain ⟨rfl, rfl⟩ := Prod.mk.inj (Option.some.inj h)
  exact ⟨s, olDistInfo, hs, hdist, rfl, hlinks, hnone, rfl⟩

/-- What is known of the line that is added for an item, and of what is reported of it. -/
structure LineFor [Money F] (db : Db F) (w d o : ℤ) (e : (NewOrderItem × Item F × ItemInfo F) × ℕ)
    (line : OrderLine F) : Prop where
  placed : ∃ s olDistInfo, db.row .stock (e.1.1.olSupplyWId, e.1.1.iId) = some s ∧
    s.distInfo d = some olDistInfo ∧
      line = .placed w d o (e.2 + 1) e.1.1 (lineInfo s e.1).olAmount olDistInfo
  links : (rowLinks .orderLine line).isSome
  vacant : db.row .orderLine (w, d, o, e.2 + 1) = none

theorem LineFor.id [Money F] {w d o : ℤ} {e : (NewOrderItem × Item F × ItemInfo F) × ℕ}
    {line : OrderLine F} (h : LineFor db w d o e line) :
    rowId .orderLine line = (w, d, o, (e.2 : ℤ) + 1) := by
  obtain ⟨s, olDistInfo, -, -, rfl⟩ := h.placed
  rfl

/-- **The loop over the lines.** -/
theorem addOrderLines_eq_some [Money F] {w d o : ℤ} {l : List (NewOrderItem × Item F × ItemInfo F)}
    {n : ℕ} {infos : List (ItemInfo F)}
    (h : (l.zipIdx n).mapM (addOrderLine w d o) db = some (infos, db')) :
    ∃ lines, List.Forall₂ (LineFor db w d o) (l.zipIdx n) lines ∧ db' = db.addRows .orderLine lines ∧
      List.Forall₂ (fun e info => ∃ s, db.row .stock (e.1.1.olSupplyWId, e.1.1.iId) = some s ∧
        info = lineInfo s e.1) (l.zipIdx n) infos := by
  induction l generalizing n db infos with
  | nil =>
    rw [List.zipIdx_nil, List.mapM_nil] at h
    obtain ⟨rfl, rfl⟩ := Prod.mk.inj (Option.some.inj h)
    exact ⟨[], List.Forall₂.nil, rfl, List.Forall₂.nil⟩
  | cons e l ih =>
    rw [List.zipIdx_cons, List.mapM_cons] at h
    obtain ⟨info, db₁, hline, h⟩ := bind_eq_some h
    obtain ⟨infos', db₂, hloop, h⟩ := bind_eq_some h
    obtain ⟨rfl, rfl⟩ := Prod.mk.inj (Option.some.inj h)
    obtain ⟨s, olDistInfo, hs, hdist, rfl, hlinks, hnone, rfl⟩ := addOrderLine_eq_some hline
    obtain ⟨lines, hlines, rfl, hinfos⟩ := ih hloop
    have hstock : ∀ r, (db.setRow .orderLine (w, d, o, (n : ℤ) + 1) r).row .stock = db.row .stock :=
      fun r => setRow_row_of_ne db (by simp)
    refine ⟨_ :: lines, List.Forall₂.cons ⟨⟨s, olDistInfo, hs, hdist, rfl⟩, hlinks, hnone⟩ ?_, rfl,
      List.Forall₂.cons ⟨s, hs, rfl⟩ ?_⟩
    · -- the later lines have other numbers
      refine hlines.imp fun e' line h' => ⟨?_, h'.links, ?_⟩
      · have hplaced := h'.placed
        simp only [hstock] at hplaced
        exact hplaced
      · have hvacant := h'.vacant
        rw [setRow_row] at hvacant
        split at hvacant
        · exact absurd hvacant (by simp)
        · exact hvacant
    · simp only [hstock] at hinfos
      exact hinfos

/-! ### The order -/

end Db

/-- What a new order finds in the database, and the lines it makes. -/
structure Placement (F : Type) (warehouseId districtId customerId : ℤ)
    (items : List NewOrderItem) where
  dist : District F
  oEntryD : CString datetimeSize
  /-- The items of the order, with the rows of the items table and what is reported of them. -/
  entries : List (NewOrderItem × Item F × ItemInfo F)
  lines : List (OrderLine F)

namespace Placement

variable {w d c : ℤ} {items : List NewOrderItem}

/-- The id of the order. -/
def oId (p : Placement F w d c items) : ℤ := p.dist.dNextOId

def order (p : Placement F w d c items) : Order := .placed w d p.oId c items p.oEntryD

def newOrder (p : Placement F w d c items) : NewOrder := ⟨w, d, p.oId⟩

/-- The rows of the order are added. -/
def apply (p : Placement F w d c items) (db : Db F) : Db F :=
  (((db.setRow .district (w, d) (some p.dist.ordered)).setRow .order (w, d, p.oId) (some p.order)).setRow
    .newOrder (w, d, p.oId) (some p.newOrder)).addRows .orderLine p.lines

variable [Money F]

/-- **What a new order needs**: the rows it reads are there, and nothing where it inserts. -/
structure Valid (p : Placement F w d c items) (db : Db F) : Prop where
  district : db.row .district (w, d) = some p.dist
  customer : (db.row .customer (w, d, c)).isSome
  warehouse : (db.row .warehouse w).isSome
  items : p.entries.map Prod.fst = items
  tuples : ∀ e ∈ p.entries, 1 ≤ e.1.iId ∧ db.items[(e.1.iId - 1).toNat]? = some e.2.1
  orderLinks : (rowLinks (F := F) .order p.order).isSome
  newOrderLinks : (rowLinks (F := F) .newOrder p.newOrder).isSome
  order : db.row .order (w, d, p.oId) = none
  newOrder : db.row .newOrder (w, d, p.oId) = none
  lines : List.Forall₂ (db.LineFor w d p.oId) p.entries.zipIdx p.lines

variable {p : Placement F w d c items} {db : Db F}

omit [Money F] in
@[simp] theorem apply_items : (p.apply db).items = db.items := by
  simp [apply]

omit [Money F] in
@[simp] theorem apply_history : (p.apply db).history = db.history := by
  simp [apply]

omit [Money F] in
theorem apply_row_of_ne {k : Kind} (h : k ∉ [Kind.district, .order, .newOrder, .orderLine]) :
    (p.apply db).row k = db.row k := by
  simp only [List.mem_cons, List.not_mem_nil, or_false, not_or] at h
  rw [apply, Db.addRows_row_of_ne h.2.2.2, Db.setRow_row_of_ne _ h.2.2.1, Db.setRow_row_of_ne _ h.2.1,
    Db.setRow_row_of_ne _ h.1]

omit [Money F] in
theorem apply_district (id : ℤ × ℤ) :
    (p.apply db).row .district id = if id = (w, d) then some p.dist.ordered else db.row .district id := by
  rw [apply, Db.addRows_row_of_ne (by simp), Db.setRow_row_of_ne _ (by simp),
    Db.setRow_row_of_ne _ (by simp), Db.setRow_row]

omit [Money F] in
theorem apply_order (id : ℤ × ℤ × ℤ) :
    (p.apply db).row .order id = if id = (w, d, p.oId) then some p.order else db.row .order id := by
  rw [apply, Db.addRows_row_of_ne (by simp), Db.setRow_row_of_ne _ (by simp), Db.setRow_row,
    Db.setRow_row_of_ne _ (by simp)]

omit [Money F] in
theorem apply_newOrder (id : ℤ × ℤ × ℤ) :
    (p.apply db).row .newOrder id =
      if id = (w, d, p.oId) then some p.newOrder else db.row .newOrder id := by
  rw [apply, Db.addRows_row_of_ne (by simp), Db.setRow_row, Db.setRow_row_of_ne _ (by simp),
    Db.setRow_row_of_ne _ (by simp)]

theorem Valid.keyed (h : p.Valid db) (hk : db.Keyed) : (p.apply db).Keyed := by
  have hdist : rowId .district p.dist = (w, d) := hk.ids h.district
  have hk₁ : (db.setRow .district (w, d) (some p.dist.ordered)).Keyed := hk.write h.district hdist
  have hk₂ := hk₁.setRow (k := .order) (r := p.order) (Db.primary_isSome (by simp) h.orderLinks)
  have hk₃ := hk₂.setRow (k := .newOrder) (r := p.newOrder) (Db.primary_isSome (by simp) h.newOrderLinks)
  refine hk₃.addRows fun line hl => Db.primary_isSome (by simp) ?_
  obtain ⟨e, -, he⟩ := exists_of_forall₂_right h.lines hl
  exact he.links

/-- The ids of the lines: their numbers count from one. -/
theorem Valid.line_ids (h : p.Valid db) :
    p.lines.map (rowId .orderLine) = (List.range items.length).map fun i : ℕ => (w, d, p.oId, (i : ℤ) + 1) := by
  have hlen : p.entries.length = items.length := by
    simpa using congrArg List.length h.items
  have hids : ∀ (es : List (NewOrderItem × Item F × ItemInfo F)) (n : ℕ) (lines : List (OrderLine F)),
      List.Forall₂ (db.LineFor w d p.oId) (es.zipIdx n) lines →
        lines.map (rowId .orderLine) = (List.range' n es.length).map fun i : ℕ => (w, d, p.oId, (i : ℤ) + 1) := by
    intro es
    induction es with
    | nil =>
      intro n lines hl
      rw [List.zipIdx_nil] at hl
      cases hl
      rfl
    | cons e es ih =>
      intro n lines hl
      rw [List.zipIdx_cons] at hl
      cases hl with
      | cons hline hl =>
        rw [List.map_cons, hline.id, ih _ _ hl, List.length_cons, List.range'_succ, List.map_cons]
  rw [hids _ 0 _ h.lines, hlen, List.range_eq_range']

/-- **The lines of the order** are the ones that are added. -/
theorem Valid.apply_line (h : p.Valid db) {line : OrderLine F} (hl : line ∈ p.lines) :
    (p.apply db).row .orderLine (rowId .orderLine line) = some line := by
  refine Db.addRows_row_of_mem ?_ hl
  rw [h.line_ids]
  refine List.Nodup.map (fun i j hij => ?_) List.nodup_range
  simpa using hij

/-- **The line of an item**, at its number. -/
theorem Valid.line_at (h : p.Valid db) {n : ℕ} {item : NewOrderItem} (hn : items[n]? = some item) :
    ∃ s tuple olDistInfo, db.row .stock (item.olSupplyWId, item.iId) = some s ∧
      db.items[(item.iId - 1).toNat]? = some tuple ∧ s.distInfo d = some olDistInfo ∧
      (p.apply db).row .orderLine (w, d, p.oId, (n : ℤ) + 1) =
        some (.placed w d p.oId (n + 1) item ((item.olQuantity : F) * tuple.iPrice) olDistInfo) := by
  obtain ⟨hlt, rfl⟩ := List.getElem?_eq_some_iff.mp hn
  have hlen : p.entries.length = items.length := by simpa using congrArg List.length h.items
  have hlines : p.lines.length = items.length := by
    rw [← h.lines.length_eq, List.length_zipIdx, hlen]
  have hentry : p.entries[n].1 = items[n] := by
    have hget := congrArg (fun l => l[n]?) h.items
    simpa [List.getElem?_eq_getElem (show n < p.entries.length by omega), List.getElem?_eq_getElem hlt] using hget
  have hline := h.lines.get (i := n) (by rw [List.length_zipIdx]; omega) (by omega)
  simp only [List.get_eq_getElem, List.getElem_zipIdx, Nat.zero_add] at hline
  obtain ⟨s, olDistInfo, hs, hdist, heq⟩ := hline.placed
  have htuple := h.tuples _ (List.getElem_mem (show n < p.entries.length by omega))
  rw [hentry] at hs htuple
  refine ⟨s, p.entries[n].2.1, olDistInfo, hs, htuple.2, hdist, ?_⟩
  have happly := h.apply_line (List.getElem_mem (show n < p.lines.length by omega))
  rw [hline.id] at happly
  rw [happly, heq]
  simp only [Db.lineInfo, hentry]

/-- Other lines are what they were. -/
theorem Valid.apply_line_of_ne (h : p.Valid db) {id : ℤ × ℤ × ℤ × ℤ}
    (hid : ∀ i < items.length, id ≠ (w, d, p.oId, (i : ℤ) + 1)) :
    (p.apply db).row .orderLine id = db.row .orderLine id := by
  rw [apply, Db.addRows_row_of_not_mem, Db.setRow_row_of_ne _ (by simp), Db.setRow_row_of_ne _ (by simp),
    Db.setRow_row_of_ne _ (by simp)]
  intro line hl heq
  have hmem : rowId .orderLine line ∈ p.lines.map (rowId .orderLine) := List.mem_map_of_mem hl
  rw [h.line_ids] at hmem
  obtain ⟨i, hi, hid'⟩ := List.mem_map.mp hmem
  exact hid i (List.mem_range.mp hi) (heq.symm.trans hid'.symm)

end Placement

namespace Db

variable [Money F] {db db' : Db F}

/-- What is reported before the quantities are combined: the lines with the prices, and the
quantities that were there. -/
def Reported (db : Db F) (entries : List (NewOrderItem × Item F × ItemInfo F))
    (infos : List (ItemInfo F)) : Prop :=
  List.Forall₂ (fun e info => ∃ s, db.row .stock (e.1.1.olSupplyWId, e.1.1.iId) = some s ∧
    info = lineInfo s e.1) entries.zipIdx infos

theorem Reported.forall₂ {entries : List (NewOrderItem × Item F × ItemInfo F)} {infos : List (ItemInfo F)}
    (h : db.Reported entries infos) : List.Forall₂ (fun e info =>
      ∃ s, db.row .stock (e.1.olSupplyWId, e.1.iId) = some s ∧ info = lineInfo s e) entries infos := by
  have hmap : entries.zipIdx.map Prod.fst = entries := List.zipIdx_map_fst 0 entries
  rw [← hmap]
  exact List.forall₂_map_left_iff.mpr h

/-- The elements that are reported on are the ones there were, and new ones. -/
def outputItems (items : List NewOrderItem) (output : NewOrderOutput F) : List (ItemInfo F) :=
  output.items.take items.length ++
    List.replicate (items.length - output.items.length) ItemInfo.new

theorem length_outputItems (items : List NewOrderItem) (output : NewOrderOutput F) :
    (outputItems items output).length = items.length := by
  simp only [outputItems, List.length_append, List.length_take, List.length_replicate]
  omega

/-- **The home part, before the quantities are combined.** -/
theorem newOrderHomeUncombined_eq_some (hk : db.Keyed) {w d c : ℤ} {items : List NewOrderItem}
    {now : List Char} {output out : NewOrderOutput F} {qs : Option (List ℤ)}
    (h : newOrderHomeUncombined w d c items now output db = some ((qs, out), db')) :
    (qs = none ∧ db' = db ∧ findAndValidateItems items db = some (none, db)) ∨
      ∃ (p : Placement F w d c items) (q : List ℤ), qs = some q ∧ p.Valid db ∧
        p.entries.map (fun e => e.2.2) = outputItems items output ∧ db.Reported p.entries out.items ∧
        out.total = out.items.foldl (fun total info => total + info.olAmount) 0 ∧
        newOrderRemote w w items (p.apply db) = some (some q, db') ∧
        db' = (p.apply db).takeStock (supplied w w items) := by
  rw [newOrderHomeUncombined] at h
  obtain ⟨_, db₁, h₁, h⟩ := bind_eq_some h
  obtain ⟨-, rfl⟩ := find_eq_some h₁
  obtain ⟨dist, db₂, h₂, h⟩ := bind_eq_some h
  obtain ⟨hdist, rfl⟩ := get_eq_some h₂
  obtain ⟨_, db₃, h₃, h⟩ := bind_eq_some h
  obtain ⟨-, rfl⟩ := find_eq_some h₃
  obtain ⟨existing, db₄, h₄, h⟩ := bind_eq_some h
  obtain ⟨hexisting, rfl⟩ := peek_eq_some h₄
  obtain ⟨_, db₅, h₅, h⟩ := bind_eq_some h
  obtain ⟨hnone, rfl⟩ := assert_eq_some h₅
  obtain ⟨_, db₆, h₆, h⟩ := bind_eq_some h
  obtain ⟨-, rfl⟩ := find_eq_some h₆
  obtain ⟨cust, db₇, h₇, h⟩ := bind_eq_some h
  obtain ⟨hcust, rfl⟩ := get_eq_some h₇
  obtain ⟨tuples, db₈, h₈, h⟩ := bind_eq_some h
  obtain ⟨rfl, htuples⟩ := findAndValidateItems_eq_some h₈
  cases tuples with
  | none =>
    obtain ⟨heq, rfl⟩ := Prod.mk.inj (Option.some.inj h)
    exact Or.inl ⟨(Prod.mk.inj heq).1.symm, rfl, h₈⟩
  | some tuples =>
    have htuples := htuples tuples rfl
    have hdid : rowId .district dist = (w, d) := hk.ids hdist
    have hdid : rowId .district dist.ordered = (w, d) := hdid
    obtain ⟨_, db₉, h₉, h⟩ := bind_eq_some h
    obtain rfl := set_eq_some h₉
    rw [hdid] at h
    obtain ⟨_, db₁₀, h₁₀, h⟩ := bind_eq_some h
    obtain ⟨-, rfl⟩ := find_eq_some h₁₀
    obtain ⟨ware, db₁₁, h₁₁, h⟩ := bind_eq_some h
    obtain ⟨hware, rfl⟩ := get_eq_some h₁₁
    obtain ⟨oEntryD, db₁₂, h₁₂, h⟩ := bind_eq_some h
    obtain ⟨-, rfl⟩ := lift_eq_some h₁₂
    obtain ⟨_, db₁₃, h₁₃, h⟩ := bind_eq_some h
    obtain ⟨-, rfl⟩ := assert_eq_some h₁₃
    obtain ⟨_, db₁₄, h₁₄, h⟩ := bind_eq_some h
    obtain ⟨hlinks, horder, rfl⟩ := insert_eq_some h₁₄
    obtain ⟨_, db₁₅, h₁₅, h⟩ := bind_eq_some h
    obtain ⟨hlinks', hneworder, rfl⟩ := insert_eq_some h₁₅
    obtain ⟨infos, db₁₆, h₁₆, h⟩ := bind_eq_some h
    obtain ⟨lines, hlines, rfl, hinfos⟩ := addOrderLines_eq_some h₁₆
    obtain ⟨quantities, db₁₇, h₁₇, h⟩ := bind_eq_some h
    cases quantities with
    | none => exact absurd h (by simp [failure, StateT.failure])
    | some q =>
      obtain ⟨heq, rfl⟩ := Prod.mk.inj (Option.some.inj h)
      obtain ⟨rfl, rfl⟩ := Prod.mk.inj heq
      have hlt : tuples.length = items.length := htuples.length_eq.symm
      have hlo := length_outputItems items output
      let p : Placement F w d c items :=
        ⟨dist, oEntryD, items.zip (tuples.zip (outputItems items output)), lines⟩
      -- what was written before does not concern the stock and the lines
      have hstock : ∀ (r : Option (District F)) (o : Option Order) (no : Option NewOrder) (id : ℤ × ℤ),
          (((db.setRow .district (w, d) r).setRow .order (w, d, dist.dNextOId) o).setRow .newOrder
            (w, d, dist.dNextOId) no).row .stock id = db.row .stock id := by
        intro r o no id
        rw [setRow_row_of_ne _ (by simp), setRow_row_of_ne _ (by simp), setRow_row_of_ne _ (by simp)]
      have hvalid : p.Valid db :=
        { district := hdist
          customer := by rw [hcust]; rfl
          warehouse := by
            rw [setRow_row_of_ne _ (by simp)] at hware
            rw [hware]
            rfl
          items := by simp [p, List.map_fst_zip, hlt, hlo]
          tuples := fun e he => by
            obtain ⟨i, hi, rfl⟩ := List.mem_iff_getElem.mp he
            simp only [p, List.length_zip, List.getElem_zip] at hi ⊢
            exact htuples.get (by omega) (by omega)
          orderLinks := hlinks
          newOrderLinks := hlinks'
          order := hexisting.trans (Option.isNone_iff_eq_none.mp hnone)
          newOrder := by
            rw [setRow_row_of_ne _ (by simp), setRow_row_of_ne _ (by simp)] at hneworder
            exact hneworder
          lines := hlines.imp fun e line hl => by
            obtain ⟨s, olDistInfo, hs, hline⟩ := hl.placed
            have hvacant := hl.vacant
            rw [setRow_row_of_ne _ (by simp), setRow_row_of_ne _ (by simp),
              setRow_row_of_ne _ (by simp)] at hvacant
            exact ⟨⟨s, olDistInfo, (hstock _ _ _ _).symm.trans hs, hline⟩, hl.links, hvacant⟩ }
      have hkeyed := hvalid.keyed hk
      refine Or.inr ⟨p, q, rfl, hvalid, ?_, ?_, rfl, h₁₇, ?_⟩
      · have hmap : (items.zip (tuples.zip (outputItems items output))).map (fun e => e.2.2) =
            ((items.zip (tuples.zip (outputItems items output))).map Prod.snd).map Prod.snd := by
          rw [List.map_map]
          rfl
        refine hmap.trans ?_
        rw [List.map_snd_zip (by simp; omega), List.map_snd_zip (by omega)]
      · refine hinfos.imp fun e info hline => ?_
        obtain ⟨s, hs, hinfo⟩ := hline
        exact ⟨s, (hstock _ _ _ _).symm.trans hs, hinfo⟩
      · rcases newOrderRemote_eq_some hkeyed h₁₇ with ⟨hnone, -⟩ | ⟨q', -, hdb⟩
        · exact absurd hnone (by simp)
        · exact hdb

/-- **`newOrderHome`.** -/
theorem newOrderHome_eq_some (hk : db.Keyed) {w d c : ℤ} {items : List NewOrderItem}
    {now : List Char} {output out : NewOrderOutput F} {result : Bool}
    (h : newOrderHome w d c items now output db = some ((result, out), db')) :
    (result = false ∧ db' = db) ∨
      result = true ∧ ∃ p : Placement F w d c items, p.Valid db ∧
        db' = (p.apply db).takeStock (supplied w w items) := by
  rw [newOrderHome] at h
  obtain ⟨⟨qs, out₁⟩, db₁, hhome, hret⟩ := bind_eq_some h
  rcases newOrderHomeUncombined_eq_some hk hhome with ⟨rfl, rfl, -⟩ | ⟨p, q, rfl, hp, -, -, -, -, rfl⟩
  · obtain ⟨heq, rfl⟩ := Prod.mk.inj (Option.some.inj hret)
    exact Or.inl ⟨(Prod.mk.inj heq).1.symm, rfl⟩
  · obtain ⟨combined, db₂, hlift, hret⟩ := bind_eq_some hret
    obtain ⟨-, rfl⟩ := lift_eq_some hlift
    obtain ⟨heq, rfl⟩ := Prod.mk.inj (Option.some.inj hret)
    exact Or.inr ⟨(Prod.mk.inj heq).1.symm, p, hp, rfl⟩

omit [Money F] in
/-- **The parts of the other warehouses.** -/
theorem newOrderRemotes_eq_some (hk : db.Keyed) {w : ℤ} {items : List NewOrderItem}
    {remotes : List ℤ} {output out : NewOrderOutput F}
    (h : newOrderRemotes w items remotes output db = some (out, db')) :
    db' = db.takeStock (remotes.flatMap fun remote => supplied w remote items) := by
  induction remotes generalizing output db with
  | nil =>
    obtain ⟨-, rfl⟩ := Prod.mk.inj (Option.some.inj h)
    exact takeStock_nil.symm
  | cons remote remotes ih =>
    rw [newOrderRemotes, List.foldlM_cons] at h
    obtain ⟨out₁, db₁, hone, h⟩ := bind_eq_some h
    obtain ⟨qs, db₂, hremote, hone⟩ := bind_eq_some hone
    rcases newOrderRemote_eq_some hk hremote with ⟨rfl, -⟩ | ⟨q, rfl, rfl⟩
    · exact absurd hone (by simp [failure, StateT.failure])
    · obtain ⟨-, rfl⟩ := lift_eq_some hone
      rw [ih (hk.takeStock _) h, takeStock_takeStock, List.flatMap_cons]

end Db

/-! ### All warehouses of an order -/

/-- The set of the remote warehouses: each once, and none forgotten. -/
theorem newOrderRemoteWarehouses_spec (home : ℤ) (items : List NewOrderItem) :
    (newOrderRemoteWarehouses home items).Nodup ∧
      ∀ r, r ∈ newOrderRemoteWarehouses home items ↔
        r ≠ home ∧ ∃ item ∈ items, item.olSupplyWId = r := by
  have hloop : ∀ (items : List NewOrderItem) (out : List ℤ), out.Nodup →
      (items.foldl (fun out item =>
        if item.olSupplyWId ≠ home ∧ item.olSupplyWId ∉ out then out ++ [item.olSupplyWId]
        else out) out).Nodup ∧
      ∀ r, r ∈ items.foldl (fun out item =>
          if item.olSupplyWId ≠ home ∧ item.olSupplyWId ∉ out then out ++ [item.olSupplyWId]
          else out) out ↔
        r ∈ out ∨ r ≠ home ∧ ∃ item ∈ items, item.olSupplyWId = r := by
    intro items
    induction items with
    | nil => exact fun out hout => ⟨hout, fun r => by simp⟩
    | cons item items ih =>
      intro out hout
      rw [List.foldl_cons]
      split
      · next hnew =>
        obtain ⟨hnd, hmem⟩ := ih (out ++ [item.olSupplyWId])
          (List.nodup_append_comm.mp (List.nodup_cons.mpr ⟨hnew.2, hout⟩))
        refine ⟨hnd, fun r => (hmem r).trans ?_⟩
        simp only [List.mem_append, List.mem_cons, List.not_mem_nil, or_false, exists_eq_or_imp]
        constructor
        · rintro ((hr | rfl) | hr)
          · exact Or.inl hr
          · exact Or.inr ⟨hnew.1, Or.inl rfl⟩
          · exact Or.inr ⟨hr.1, Or.inr hr.2⟩
        · rintro (hr | ⟨hr, rfl | hitem⟩)
          · exact Or.inl (Or.inl hr)
          · exact Or.inl (Or.inr rfl)
          · exact Or.inr ⟨hr, hitem⟩
      · next hold =>
        obtain ⟨hnd, hmem⟩ := ih out hout
        refine ⟨hnd, fun r => (hmem r).trans ?_⟩
        simp only [List.mem_cons, exists_eq_or_imp]
        constructor
        · rintro (hr | hr)
          · exact Or.inl hr
          · exact Or.inr ⟨hr.1, Or.inr hr.2⟩
        · rintro (hr | ⟨hr, rfl | hitem⟩)
          · exact Or.inl hr
          · refine Or.inl ?_
            by_contra hout
            exact hold ⟨hr, hout⟩
          · exact Or.inr ⟨hr, hitem⟩
  obtain ⟨hnd, hmem⟩ := hloop items [] List.nodup_nil
  exact ⟨hnd, fun r => (hmem r).trans (by simp)⟩

namespace Db

/-- The lines of an order. -/
def orderLines (home : ℤ) (items : List NewOrderItem) : List SupplyLine :=
  items.map fun item => (home, item)

/-- A part of an order has the lines of the stock rows of its warehouse. -/
theorem linesAt_supplied (id : ℤ × ℤ) (home warehouse : ℤ) (items : List NewOrderItem) :
    linesAt id (supplied home warehouse items) =
      if id.1 = warehouse then linesAt id (orderLines home items) else [] := by
  induction items with
  | nil => simp [supplied, orderLines, linesAt]
  | cons item items ih =>
    have hcons : linesAt id (orderLines home (item :: items)) =
        linesAt id [(home, item)] ++ linesAt id (orderLines home items) := by
      rw [← linesAt_append]
      rfl
    rw [supplied_cons, linesAt_append, ih, hcons]
    by_cases hs : item.olSupplyWId = warehouse
    · split
      · simp [supplied, hs, linesAt]
      · next hne =>
        have hsource : SupplyLine.source (home, item) ≠ id := fun heq => hne (by rw [← heq]; exact hs)
        simp [supplied, hs, linesAt, hsource]
    · split
      · next heq =>
        have hsource : SupplyLine.source (home, item) ≠ id := fun h => hs (by rw [← heq, ← h]; rfl)
        simp [supplied, hs, linesAt, hsource]
      · simp [supplied, hs, linesAt]

/-- **The parts of all warehouses have all lines**, in whichever order the warehouses come. -/
theorem linesAt_parts (id : ℤ × ℤ) {home : ℤ} {items : List NewOrderItem} {ws : List ℤ} (hnd : ws.Nodup)
    (hall : ∀ item ∈ items, item.olSupplyWId ∈ ws) :
    linesAt id (ws.flatMap fun w => supplied home w items) = linesAt id (orderLines home items) := by
  have hparts : ∀ ws : List ℤ, ws.Nodup → linesAt id (ws.flatMap fun w => supplied home w items) =
      if id.1 ∈ ws then linesAt id (orderLines home items) else [] := by
    intro ws hnd
    induction ws with
    | nil => simp [linesAt]
    | cons w ws ih =>
      obtain ⟨hw, hnd⟩ := List.nodup_cons.mp hnd
      rw [List.flatMap_cons, linesAt_append, linesAt_supplied, ih hnd]
      by_cases hid : id.1 = w
      · have hout : id.1 ∉ ws := hid ▸ hw
        simp [hid, hw]
      · simp [hid]
  rw [hparts ws hnd]
  split
  · rfl
  · next hout =>
    -- no line is of a row of another warehouse
    refine (List.filter_eq_nil_iff.mpr fun l hl heq => hout ?_).symm
    obtain ⟨item, hitem, rfl⟩ := List.mem_map.mp hl
    have hsource : SupplyLine.source (home, item) = id := of_decide_eq_true heq
    rw [← hsource]
    exact hall item hitem

/-- The home part and the remote parts of an order. -/
theorem takeStock_parts {db : Db F} {home : ℤ} {items : List NewOrderItem} {remotes : List ℤ}
    (hperm : remotes.Perm (newOrderRemoteWarehouses home items)) :
    (db.takeStock (supplied home home items)).takeStock
        (remotes.flatMap fun remote => supplied home remote items) =
      db.takeStock (orderLines home items) := by
  obtain ⟨hnd, hmem⟩ := newOrderRemoteWarehouses_spec home items
  rw [takeStock_takeStock]
  refine takeStock_congr fun id => ?_
  have hcons : supplied home home items ++ (remotes.flatMap fun remote => supplied home remote items) =
      (home :: remotes).flatMap fun w => supplied home w items := rfl
  rw [hcons]
  refine linesAt_parts id ?_ fun item hitem => ?_
  · refine List.nodup_cons.mpr ⟨fun hin => ?_, hperm.nodup_iff.mpr hnd⟩
    exact ((hmem home).mp (hperm.mem_iff.mp hin)).1 rfl
  · by_cases hhome : item.olSupplyWId = home
    · exact hhome ▸ List.mem_cons_self
    · exact List.mem_cons_of_mem _ (hperm.mem_iff.mpr ((hmem _).mpr ⟨hhome, item, hitem, rfl⟩))

/-- **`newOrder`.** -/
theorem newOrder_eq_some [Money F] {db db' : Db F} (hk : db.Keyed) {h : HashOrder} {w d c : ℤ}
    {items : List NewOrderItem} {now : List Char} {output out : NewOrderOutput F} {result : Bool}
    (hrun : newOrder h w d c items now output db = some ((result, out), db')) :
    (result = false ∧ db' = db) ∨
      result = true ∧ ∃ p : Placement F w d c items, p.Valid db ∧
        db' = (p.apply db).takeStock (orderLines w items) := by
  rw [newOrder] at hrun
  obtain ⟨⟨home, out₁⟩, db₁, hhome, hret⟩ := bind_eq_some hrun
  rcases newOrderHome_eq_some hk hhome with ⟨rfl, rfl⟩ | ⟨rfl, p, hp, rfl⟩
  · obtain ⟨heq, rfl⟩ := Prod.mk.inj (Option.some.inj hret)
    exact Or.inl ⟨(Prod.mk.inj heq).1.symm, rfl⟩
  · obtain ⟨out₂, db₂, hremotes, hret⟩ := bind_eq_some hret
    obtain ⟨heq, rfl⟩ := Prod.mk.inj (Option.some.inj hret)
    refine Or.inr ⟨(Prod.mk.inj heq).1.symm, p, hp, ?_⟩
    rw [newOrderRemotes_eq_some ((hp.keyed hk).takeStock _) hremotes]
    exact takeStock_parts (h.perm _ _)

end Db

/-! ### Committed orders -/

/-- A call of `newOrder` or of `newOrderHome`. -/
inductive Txn.Places [Money F] (w d c : ℤ) (items : List NewOrderItem) : Txn F → Prop
  | newOrder (h now output) : Places w d c items (.newOrder h w d c items now output)
  | newOrderHome (now output) : Places w d c items (.newOrderHome w d c items now output)

/-- **A committed order** has been placed, and taken from the stock. -/
theorem Txn.Places.onDb [Money F] {w d c : ℤ} {items : List NewOrderItem} {x : Txn F} (hx : x.Places w d c items)
    {y : Dx F (Reply F)} (h : x.OnDb y) {db db' : Db F} (hk : db.Keyed) {r : Reply F}
    (hrun : y db = some (r, db')) :
    (r.committed = false ∧ db' = db) ∨
      r.committed = true ∧ ∃ (p : Placement F w d c items) (ls : List SupplyLine), p.Valid db ∧
        db' = (p.apply db).takeStock ls := by
  cases hx with
  | newOrder o now output =>
    cases h with
    | newOrder =>
      obtain ⟨⟨result, out⟩, db₁, hy, hret⟩ := bind_eq_some hrun
      obtain ⟨rfl, rfl⟩ := Prod.mk.inj (Option.some.inj hret)
      rcases Db.newOrder_eq_some hk hy with ⟨rfl, rfl⟩ | ⟨rfl, p, hp, rfl⟩
      · exact Or.inl ⟨rfl, rfl⟩
      · exact Or.inr ⟨rfl, p, _, hp, rfl⟩
  | newOrderHome now output =>
    cases h with
    | newOrderHome =>
      obtain ⟨⟨result, out⟩, db₁, hy, hret⟩ := bind_eq_some hrun
      obtain ⟨rfl, rfl⟩ := Prod.mk.inj (Option.some.inj hret)
      rcases Db.newOrderHome_eq_some hk hy with ⟨rfl, rfl⟩ | ⟨rfl, p, hp, rfl⟩
      · exact Or.inl ⟨rfl, rfl⟩
      · exact Or.inr ⟨rfl, p, _, hp, rfl⟩

end TpccBench
