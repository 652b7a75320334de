import TpccBench.Tables.Insertions

/-!
# What a database is

A database, without any pointers: for each kind of rows, which row there is of which ids;
the items; and the history (`TpccBench.Db`). The tables show a database
(`TpccBench.Tables.db`), and each of their operations does to it what its name says: a row
is found by its ids, written, inserted, taken out.

The ids of a row are the ones its first index is keyed by. That no two rows have the same
key (`TpccBench.primary_inj`) makes the operations of a database as simple as they are.
-/

namespace TpccBench

variable {F : Type}

/-! ### Ids -/

/-- The ids of a row. A history row has none. -/
abbrev RowId : Kind → Type
  | .warehouse => ℤ
  | .district => ℤ × ℤ
  | .stock => ℤ × ℤ
  | .customer => ℤ × ℤ × ℤ
  | .order => ℤ × ℤ × ℤ
  | .orderLine => ℤ × ℤ × ℤ × ℤ
  | .newOrder => ℤ × ℤ × ℤ
  | .history => Unit

instance (k : Kind) : DecidableEq (RowId k) := by
  cases k <;> infer_instance

def rowId : (k : Kind) → Row F k → RowId k
  | .warehouse, w => w.wId
  | .district, d => (d.dWId, d.dId)
  | .stock, s => (s.sWId, s.sIId)
  | .customer, c => (c.cWId, c.cDId, c.cId)
  | .order, o => (o.oWId, o.oDId, o.oId)
  | .orderLine, ol => (ol.olWId, ol.olDId, ol.olOId, ol.olNumber)
  | .newOrder, no => (no.noWId, no.noDId, no.noOId)
  | .history, _ => ()

/-- Where a row with these ids is linked first. -/
def primary : (k : Kind) → RowId k → Option (Index × ℤ)
  | .warehouse, w => some (.tree .warehouses, w)
  | .district, (w, d) => (makeDistrictKey .checked w d).map fun key => (.tree .districts, key)
  | .stock, (w, i) => (makeStockKey .checked w i).map fun key => (.tree .stock, key)
  | .customer, (w, d, c) => (makeCustomerKey .checked w d c).map fun key => (.tree .customers, key)
  | .order, (w, d, o) => (makeOrderKey .checked w d o).map fun key => (.tree .orders, key)
  | .orderLine, (w, d, o, n) =>
    (makeOrderLineKey .checked w d o n).map fun key => (.tree .orderlines, key)
  | .newOrder, (w, d, o) => (makeNewOrderKey .checked w d o).map fun key => (.neworders, key)
  | .history, _ => none

/-- **Different ids lead to different entries.** -/
theorem primary_inj {k : Kind} {id id' : RowId k} {l : Index × ℤ} (h : primary k id = some l)
    (h' : primary k id' = some l) : id = id' := by
  cases k with
  | warehouse => exact congrArg Prod.snd (Option.some.inj (h.trans h'.symm))
  | history => rfl
  | district =>
    obtain ⟨key, hkey, rfl⟩ := Option.map_eq_some_iff.mp h
    obtain ⟨key', hkey', heq⟩ := Option.map_eq_some_iff.mp h'
    obtain rfl := congrArg Prod.snd heq
    obtain ⟨hw, hd⟩ := makeDistrictKey_inj hkey hkey'
    exact Prod.ext hw hd
  | stock =>
    obtain ⟨key, hkey, rfl⟩ := Option.map_eq_some_iff.mp h
    obtain ⟨key', hkey', heq⟩ := Option.map_eq_some_iff.mp h'
    obtain rfl := congrArg Prod.snd heq
    obtain ⟨hw, hi⟩ := makeStockKey_inj hkey hkey'
    exact Prod.ext hw hi
  | customer =>
    obtain ⟨key, hkey, rfl⟩ := Option.map_eq_some_iff.mp h
    obtain ⟨key', hkey', heq⟩ := Option.map_eq_some_iff.mp h'
    obtain rfl := congrArg Prod.snd heq
    obtain ⟨hw, hd, hc⟩ := makeCustomerKey_inj hkey hkey'
    exact Prod.ext hw (Prod.ext hd hc)
  | order =>
    obtain ⟨key, hkey, rfl⟩ := Option.map_eq_some_iff.mp h
    obtain ⟨key', hkey', heq⟩ := Option.map_eq_some_iff.mp h'
    obtain rfl := congrArg Prod.snd heq
    obtain ⟨hw, hd, ho⟩ := makeOrderKey_inj hkey hkey'
    exact Prod.ext hw (Prod.ext hd ho)
  | orderLine =>
    obtain ⟨key, hkey, rfl⟩ := Option.map_eq_some_iff.mp h
    obtain ⟨key', hkey', heq⟩ := Option.map_eq_some_iff.mp h'
    obtain rfl := congrArg Prod.snd heq
    obtain ⟨hw, hd, ho, hn⟩ := makeOrderLineKey_inj hkey hkey'
    exact Prod.ext hw (Prod.ext hd (Prod.ext ho hn))
  | newOrder =>
    obtain ⟨key, hkey, rfl⟩ := Option.map_eq_some_iff.mp h
    obtain ⟨key', hkey', heq⟩ := Option.map_eq_some_iff.mp h'
    obtain rfl := congrArg Prod.snd heq
    obtain ⟨hw, hd, ho⟩ := makeNewOrderKey_inj hkey hkey'
    exact Prod.ext hw (Prod.ext hd ho)

/-- A row is linked where its ids say. -/
theorem primary_mem {k : Kind} (hk : k ≠ .history) {r : Row F k} {ls : List (Index × ℤ)}
    (h : rowLinks k r = some ls) : ∃ l ∈ ls, primary k (rowId k r) = some l := by
  cases k with
  | history => exact absurd rfl hk
  | warehouse =>
    obtain rfl := Option.some.inj h
    exact ⟨_, List.mem_singleton_self _, rfl⟩
  | order =>
    obtain ⟨key, hkey, h⟩ := Option.bind_eq_some_iff.mp h
    obtain ⟨key', hkey', rfl⟩ := Option.map_eq_some_iff.mp h
    exact ⟨_, List.mem_cons_self, Option.map_eq_some_iff.mpr ⟨key, hkey, rfl⟩⟩
  | district | stock | customer | orderLine | newOrder =>
    obtain ⟨key, hkey, rfl⟩ := Option.map_eq_some_iff.mp h
    exact ⟨_, List.mem_singleton_self _, Option.map_eq_some_iff.mpr ⟨key, hkey, rfl⟩⟩

theorem kind_of_primary {k : Kind} {id : RowId k} {l : Index × ℤ} (h : primary k id = some l) :
    Index.kind l.1 = k := by
  cases k with
  | warehouse =>
    obtain rfl := Option.some.inj h
    rfl
  | history => exact absurd h (by simp [primary])
  | district | stock | customer | order | orderLine | newOrder =>
    obtain ⟨key, -, rfl⟩ := Option.map_eq_some_iff.mp h
    rfl

/-- A row that is linked where some ids say has these ids. -/
theorem rowId_of_primary_mem {k : Kind} {id : RowId k} {r : Row F k} {l : Index × ℤ}
    {ls : List (Index × ℤ)} (hid : primary k id = some l) (h : rowLinks k r = some ls)
    (hl : l ∈ ls) : rowId k r = id := by
  have hk : k ≠ .history := by
    rintro rfl
    exact absurd hid (by simp [primary])
  obtain ⟨l', hl', hrow⟩ := primary_mem hk h
  have hll : l' = l := by
    cases k with
    | history => exact absurd rfl hk
    | warehouse =>
      obtain rfl := Option.some.inj h
      rw [List.mem_singleton.mp hl, List.mem_singleton.mp hl']
    | order =>
      -- the second index is another one
      obtain ⟨key, -, h⟩ := Option.bind_eq_some_iff.mp h
      obtain ⟨key', -, rfl⟩ := Option.map_eq_some_iff.mp h
      obtain ⟨_, -, rfl⟩ := Option.map_eq_some_iff.mp hid
      obtain ⟨_, -, rfl⟩ := Option.map_eq_some_iff.mp hrow
      simp only [List.mem_cons, Prod.mk.injEq, true_and, List.not_mem_nil, or_false, reduceCtorEq,
        Index.tree.injEq, false_and] at hl hl'
      rw [hl, hl']
    | district | stock | customer | orderLine | newOrder =>
      obtain ⟨key, -, rfl⟩ := Option.map_eq_some_iff.mp h
      rw [List.mem_singleton.mp hl, List.mem_singleton.mp hl']
  exact primary_inj hrow (hll ▸ hid)

/-- Rows that are linked at one place have the same ids. -/
theorem rowId_eq_of_links {k : Kind} {r r' : Row F k} {ls ls' : List (Index × ℤ)} {l : Index × ℤ}
    (h : rowLinks k r = some ls) (h' : rowLinks k r' = some ls') (hl : l ∈ ls) (hl' : l ∈ ls') :
    rowId k r = rowId k r' := by
  cases k with
  | history => rfl
  | order =>
    -- either index tells the ids
    obtain ⟨key, hkey, h⟩ := Option.bind_eq_some_iff.mp h
    obtain ⟨skey, hskey, rfl⟩ := Option.map_eq_some_iff.mp h
    obtain ⟨key', hkey', h'⟩ := Option.bind_eq_some_iff.mp h'
    obtain ⟨skey', hskey', rfl⟩ := Option.map_eq_some_iff.mp h'
    rcases List.mem_pair.mp hl with rfl | rfl <;> rcases List.mem_pair.mp hl' with heq | heq
    · obtain rfl := congrArg Prod.snd heq
      obtain ⟨hw, hd, ho⟩ := makeOrderKey_inj hkey hkey'
      exact Prod.ext hw (Prod.ext hd ho)
    · exact absurd heq (by simp)
    · exact absurd heq (by simp)
    · obtain rfl := congrArg Prod.snd heq
      obtain ⟨hw, hd, -, ho⟩ := makeOrderByCustomerKey_inj hskey hskey'
      exact Prod.ext hw (Prod.ext hd ho)
  | warehouse | district | stock | customer | orderLine | newOrder =>
    obtain ⟨l₀, hl₀, hprim⟩ := primary_mem (by simp) h'
    have hone : l₀ = l := by
      first
        | obtain rfl := Option.some.inj h'
          rw [List.mem_singleton.mp hl', List.mem_singleton.mp hl₀]
        | obtain ⟨key, -, rfl⟩ := Option.map_eq_some_iff.mp h'
          rw [List.mem_singleton.mp hl', List.mem_singleton.mp hl₀]
    exact rowId_of_primary_mem hprim h (hone ▸ hl)

/-! ### Databases -/

/-- A database. -/
@[ext]
structure Db (F : Type) where
  items : List (Item F)
  row : (k : Kind) → RowId k → Option (Row F k)
  history : List (History F)

namespace Db

/-- Set or take out a row. -/
def setRow (db : Db F) (k : Kind) (id : RowId k) (r : Option (Row F k)) : Db F :=
  { db with row := Function.update db.row k (Function.update (db.row k) id r) }

variable (db : Db F) {k k' : Kind} {id : RowId k} {r : Option (Row F k)}

@[simp] theorem setRow_items : (db.setRow k id r).items = db.items := rfl

@[simp] theorem setRow_history : (db.setRow k id r).history = db.history := rfl

@[simp] theorem setRow_row_same : (db.setRow k id r).row k id = r := by
  simp [setRow]

theorem setRow_row (id' : RowId k) :
    (db.setRow k id r).row k id' = if id' = id then r else db.row k id' := by
  simp [setRow, Function.update_apply]

theorem setRow_row_of_ne (h : k' ≠ k) : (db.setRow k id r).row k' = db.row k' := by
  simp [setRow, h]

end Db

/-! ### The database that tables show -/

namespace Tables

/-- The address of the row with some ids. -/
def lookup (t : Tables F) (k : Kind) (id : RowId k) : Option Ptr :=
  (primary k id).bind fun l => t.store.index l.1 l.2

/-- **The database that the tables show.** -/
def db (t : Tables F) : Db F where
  items := t.items
  row k id := (t.lookup k id).bind (t.store.cell k)
  history := t.history.filterMap (t.store.cell .history)

/-- Well-formed tables whose customers in name order are all linked. -/
structure Sound (t : Tables F) : Prop extends t.WellFormed where
  named : ∀ p ∈ t.customersByName, ∃ key, t.store.index (.tree .customers) key = some p

variable {t t' : Tables F} {k : Kind} {id : RowId k} {p : Ptr}

theorem lookup_of_primary {l : Index × ℤ} (h : primary k id = some l) :
    t.lookup k id = t.store.index l.1 l.2 := by
  rw [lookup, h, Option.bind_some]

/-- **A row that is found** lives, and has the ids it was looked up by. -/
theorem row_of_lookup (h : t.store.Linked (schema F)) (hp : t.lookup k id = some p) :
    ∃ (r : Row F k) (ls : List (Index × ℤ)), t.store.cell k p = some r ∧ rowLinks k r = some ls ∧
      (∀ l ∈ ls, t.store.index l.1 l.2 = some p) ∧ rowId k r = id := by
  obtain ⟨l, hl, hp⟩ := Option.bind_eq_some_iff.mp hp
  obtain ⟨ls, hls, hmem, hall⟩ := h l p hp
  obtain ⟨r, hr, hlinks⟩ : t.store.Links (schema F) k p ls := kind_of_primary hl ▸ hls
  exact ⟨r, ls, hr, hlinks, hall, rowId_of_primary_mem hl hlinks hmem⟩

theorem lookup_of_row {r : Row F k} (h : t.db.row k id = some r) :
    ∃ p, t.lookup k id = some p ∧ t.store.cell k p = some r :=
  Option.bind_eq_some_iff.mp h

theorem row_eq (t : Tables F) (k : Kind) (id : RowId k) :
    t.db.row k id = (t.lookup k id).bind (t.store.cell k) := rfl

theorem row_of_lookup_eq_some (hp : t.lookup k id = some p) : t.db.row k id = t.store.cell k p := by
  rw [row_eq, hp, Option.bind_some]

/-- Nothing is found when there is no row. -/
theorem lookup_eq_none_iff (h : t.store.Linked (schema F)) :
    t.lookup k id = none ↔ t.db.row k id = none := by
  refine ⟨fun hp => by rw [row_eq, hp, Option.bind_none], fun hr => ?_⟩
  by_contra hp
  obtain ⟨p, hp⟩ := Option.ne_none_iff_exists'.mp hp
  obtain ⟨r, ls, hcell, -⟩ := row_of_lookup h hp
  rw [row_of_lookup_eq_some hp] at hr
  exact absurd (hr.symm.trans hcell) (by simp)

/-- A row has the ids it is at. -/
theorem rowId_of_row (h : t.store.Linked (schema F)) {r : Row F k} (hr : t.db.row k id = some r) :
    rowId k r = id := by
  obtain ⟨p, hp, hcell⟩ := lookup_of_row hr
  obtain ⟨r', ls, hcell', -, -, hid⟩ := row_of_lookup h hp
  obtain rfl := Option.some.inj (hcell.symm.trans hcell')
  exact hid

/-- An address is found by no more than one row's ids. -/
theorem lookup_unique (h : t.store.Linked (schema F)) {id' : RowId k} (hp : t.lookup k id = some p)
    (hp' : t.lookup k id' = some p) : id = id' := by
  obtain ⟨r, ls, hcell, -, -, rfl⟩ := row_of_lookup h hp
  obtain ⟨r', ls', hcell', -, -, rfl⟩ := row_of_lookup h hp'
  obtain rfl := Option.some.inj (hcell.symm.trans hcell')
  rfl

theorem lookup_congr (h : t'.store.index = t.store.index) : t'.lookup k id = t.lookup k id := by
  rw [lookup, lookup, h]

/-! ### What the operations do to it -/

/-- **Writing a row.** -/
theorem db_write (h : t.store.Linked (schema F)) (hp : t.lookup k id = some p) {r : Row F k}
    (hstore : t'.store = t.store.setCell k p (some r)) (hitems : t'.items = t.items)
    (hhistory : t'.history = t.history) (hk : k ≠ .history) :
    t'.db = t.db.setRow k id (some r) := by
  have hidx : t'.store.index = t.store.index := by rw [hstore]; rfl
  refine Db.ext hitems ?_ ?_
  · refine funext fun k' => funext fun id' => ?_
    have hlook : t'.lookup k' id' = t.lookup k' id' := lookup_congr hidx
    by_cases hkk : k' = k
    · subst hkk
      rw [Db.setRow_row, row_eq, hlook]
      split
      · next heq =>
        subst heq
        rw [hp, Option.bind_some, hstore, Store.setCell_cell_same]
      · next hne =>
        rw [row_eq]
        cases hq : t.lookup k' id' with
        | none => rfl
        | some q =>
          have hqp : q ≠ p := fun heq => hne (lookup_unique h (heq ▸ hq) hp)
          simp only [Option.bind_some, hstore]
          exact Store.setCell_cell_of_ne _ _ fun h => hqp h.2
    · rw [Db.setRow_row_of_ne _ hkk, row_eq, row_eq, hlook]
      cases hq : t.lookup k' id' with
      | none => rfl
      | some q =>
        simp only [Option.bind_some, hstore]
        exact Store.setCell_cell_of_ne _ _ fun h => hkk h.1
  · simp only [db, hhistory, Db.setRow_history]
    refine List.filterMap_congr fun q _ => ?_
    rw [hstore]
    exact Store.setCell_cell_of_ne _ _ fun h => hk h.1.symm

/-- Entries that are set lead there. -/
theorem lookup_setIndex_same (hk : k ≠ .history) {r : Row F k} {ls : List (Index × ℤ)}
    (hls : rowLinks k r = some ls) {q : Option Ptr}
    (hindex : t'.store.index = (t.store.setIndex ls q).index) : t'.lookup k (rowId k r) = q := by
  obtain ⟨l, hl, hprim⟩ := primary_mem hk hls
  rw [lookup_of_primary hprim, hindex]
  exact (Store.setIndex_index _ _ _ l).trans (if_pos hl)

/-- Other ids are looked up in other places. -/
theorem lookup_setIndex_other {ls : List (Index × ℤ)} {q : Option Ptr} (hindex : t'.store.index = (t.store.setIndex ls q).index) {k' : Kind}
    {id' : RowId k'} (hne : ∀ l ∈ ls, primary k' id' ≠ some l) :
    t'.lookup k' id' = t.lookup k' id' := by
  cases hp' : primary k' id' with
  | none => rw [lookup, lookup, hp', Option.bind_none, Option.bind_none]
  | some l' =>
    rw [lookup_of_primary hp', lookup_of_primary hp', hindex]
    exact (Store.setIndex_index _ _ _ l').trans (if_neg fun hmem => hne l' hmem hp')

/-- A row that is looked up elsewhere is what it was. -/
theorem db_of_setIndex (hk : k ≠ .history) {r : Row F k} {ls : List (Index × ℤ)}
    (hls : rowLinks k r = some ls) {q : Option Ptr}
    (hindex : t'.store.index = (t.store.setIndex ls q).index)
    (hcell : ∀ k' p', ¬(k' = k ∧ p' = p) → t'.store.cell k' p' = t.store.cell k' p')
    (hother : ∀ id', id' ≠ rowId k r → t.lookup k id' ≠ some p)
    (hitems : t'.items = t.items) (hhistory : t'.history = t.history) :
    t'.db = t.db.setRow k (rowId k r) (q.bind (t'.store.cell k)) := by
  refine Db.ext hitems ?_ ?_
  · refine funext fun k' => funext fun id' => ?_
    by_cases hkk : k' = k
    · subst hkk
      rw [Db.setRow_row, row_eq]
      split
      · next heq =>
        subst heq
        rw [lookup_setIndex_same hk hls hindex]
      · next hne =>
        rw [row_eq, lookup_setIndex_other hindex fun l hl hp =>
          hne (rowId_of_primary_mem hp hls hl).symm]
        cases hq : t.lookup k' id' with
        | none => rfl
        | some p' => exact hcell k' p' fun h => hother id' hne (h.2 ▸ hq)
    · rw [Db.setRow_row_of_ne _ hkk, row_eq, row_eq, lookup_setIndex_other hindex fun l hl hp =>
        hkk ((kind_of_primary hp).symm.trans (kind_of_rowLinks hls hl))]
      cases hq : t.lookup k' id' with
      | none => rfl
      | some p' => exact hcell k' p' fun h => hkk h.1
  · simp only [db, hhistory, Db.setRow_history]
    exact List.filterMap_congr fun p' _ => hcell .history p' fun h => hk h.1.symm

/-- Writing keeps tables sound. -/
theorem Sound.write (h : t.Sound) {r₀ r : Row F k} (hcell : t.store.cell k p = some r₀)
    (hl : rowLinks k r = rowLinks k r₀) (hstore : t'.store = t.store.setCell k p (some r))
    (hrest : t'.rest = t.rest) : t'.Sound := by
  have hlive : ∀ k' q, (t.store.cell k' q).isSome → (t'.store.cell k' q).isSome := by
    intro k' q hq
    rw [hstore]
    by_cases heq : k' = k ∧ q = p
    · obtain ⟨rfl, rfl⟩ := heq
      rw [Store.setCell_cell_same]
      rfl
    · rwa [Store.setCell_cell_of_ne _ _ heq]
  have hname : t'.customersByName = t.customersByName := congrArg Rest.customersByName hrest
  have hhist : t'.history = t.history := congrArg Rest.history hrest
  refine ⟨⟨?_, ?_, ?_⟩, ?_⟩
  · rw [hstore]
    exact h.linked.write hcell hl
  · rw [hname]
    exact fun q hq => hlive _ q (h.customersByName q hq)
  · rw [hhist]
    exact fun q hq => hlive _ q (h.history q hq)
  · rw [hname, hstore]
    exact h.named

/-- **Inserting a row.** -/
theorem db_insert (hk : k ≠ .history) (h : t.store.Linked (schema F)) {r : Row F k}
    {ls : List (Index × ℤ)} (hls : rowLinks k r = some ls) (hfresh : t.store.cell k p = none)
    (hstore : t'.store = (t.store.setCell k p (some r)).setIndex ls (some p))
    (hitems : t'.items = t.items) (hhistory : t'.history = t.history) :
    t'.db = t.db.setRow k (rowId k r) (some r) := by
  have hself : t'.store.cell k p = some r := by
    rw [hstore, Store.setIndex_cell, Store.setCell_cell_same]
  rw [db_of_setIndex (p := p) hk hls (by rw [hstore]; rfl) (fun k' p' hne => ?_) (fun id' _ hq => ?_)
    hitems hhistory, Option.bind_some, hself]
  · rw [hstore, Store.setIndex_cell, Store.setCell_cell_of_ne _ _ hne]
  · obtain ⟨r', ls', hr', -⟩ := row_of_lookup h hq
    exact absurd (hfresh.symm.trans hr') (by simp)

theorem row_eq_none_of_vacant (hk : k ≠ .history) (h : t.store.Linked (schema F)) {r : Row F k}
    {ls : List (Index × ℤ)} (hls : rowLinks k r = some ls)
    (hidx : ∀ l ∈ ls, t.store.index l.1 l.2 = none) : t.db.row k (rowId k r) = none := by
  obtain ⟨l, hl, hprim⟩ := primary_mem hk hls
  refine (lookup_eq_none_iff h).mp ?_
  rw [lookup_of_primary hprim]
  exact hidx l hl

/-- Where a row would be linked there is nothing, if there is no row with its ids. -/
theorem vacant_of_row_eq_none (hk : k ≠ .history) (h : t.store.Linked (schema F)) {r : Row F k}
    {ls : List (Index × ℤ)} (hls : rowLinks k r = some ls) (hr : t.db.row k (rowId k r) = none) :
    ∀ l ∈ ls, t.store.index l.1 l.2 = none := by
  intro l hl
  by_contra hne
  obtain ⟨p, hp⟩ := Option.ne_none_iff_exists'.mp hne
  obtain ⟨ls', hlinks, hl', hall⟩ := h l p hp
  obtain ⟨r', hr', hls'⟩ : t.store.Links (schema F) k p ls' := kind_of_rowLinks hls hl ▸ hlinks
  -- the row there has the same ids
  obtain ⟨l₀, hl₀, hprim⟩ := primary_mem hk hls'
  rw [← rowId_eq_of_links hls hls' hl hl'] at hprim
  have hlook : t.lookup k (rowId k r) = some p := by
    rw [lookup_of_primary hprim]
    exact hall l₀ hl₀
  rw [row_of_lookup_eq_some hlook] at hr
  exact absurd (hr.symm.trans hr') (by simp)

/-- **Taking out a row.** Whether it is freed makes no difference. -/
theorem db_unlink (hk : k ≠ .history) (h : t.store.Linked (schema F)) {r : Row F k}
    {ls : List (Index × ℤ)} (hls : rowLinks k r = some ls)
    (hidx : ∀ l ∈ ls, t.store.index l.1 l.2 = some p)
    (hindex : t'.store.index = (t.store.setIndex ls none).index)
    (hcell : ∀ k' p', ¬(k' = k ∧ p' = p) → t'.store.cell k' p' = t.store.cell k' p')
    (hitems : t'.items = t.items) (hhistory : t'.history = t.history) :
    t'.db = t.db.setRow k (rowId k r) none := by
  obtain ⟨l, hl, hprim⟩ := primary_mem hk hls
  have hlook : t.lookup k (rowId k r) = some p := by
    rw [lookup_of_primary hprim]
    exact hidx l hl
  exact db_of_setIndex hk hls hindex hcell (fun id' hne hq => hne (lookup_unique h hq hlook)) hitems
    hhistory

/-! ### Sound tables stay sound -/

/-- Entries may be added. -/
theorem Sound.grow (h : t.Sound) (hgrow : Grows t t') (hname : t'.customersByName = t.customersByName)
    (hidx : ∀ key p, t.store.index (.tree .customers) key = some p →
      t'.store.index (.tree .customers) key = some p) : t'.Sound where
  toWellFormed := hgrow.wellFormed h.toWellFormed
  named p hp := by
    obtain ⟨key, hkey⟩ := h.named p (hname ▸ hp)
    exact ⟨key, hidx key p hkey⟩

/-- **Inserting keeps tables sound**, and inserts into the database. -/
theorem Sound.inserts (h : t.Sound) {x : Op F Ptr} {r : Row F k} (hx : Op.Inserts x k r)
    (hk : k ≠ .history) (hrun : x t = some (p, t')) :
    t'.Sound ∧ (rowLinks k r).isSome ∧ t.db.row k (rowId k r) = none ∧
      t'.db = t.db.setRow k (rowId k r) (some r) := by
  obtain ⟨ls, hls, hidx, rfl, hstore, hrest⟩ := hx.of_eq_some hrun
  have hname : t'.customersByName = t.customersByName := congrArg Rest.customersByName hrest
  refine ⟨h.grow (hx.grows hrun) hname fun key p hp => ?_, by rw [hls]; rfl,
    row_eq_none_of_vacant hk h.linked hls hidx, ?_⟩
  · rw [hstore, Store.setIndex_index _ _ _ (Index.tree .customers, key), if_neg fun hl => ?_]
    · exact hp
    · exact absurd ((hidx _ hl).symm.trans hp) (by simp)
  · exact db_insert hk h.linked hls (t.cell_next k) hstore (congrArg Rest.items hrest)
      (congrArg Rest.history hrest)

/-- **Appending a history row.** -/
theorem Sound.insertHistory (h : t.Sound) {r : History F}
    (hrun : Op.insertHistory r t = some (p, t')) :
    t'.Sound ∧ t'.store.index = t.store.index ∧
      t'.db = { t.db with history := t.db.history ++ [r] } := by
  obtain ⟨t₁, hrun₁, hstore, hrest⟩ := Op.insertHistory_apply t r
  obtain ⟨rfl, rfl⟩ := Prod.mk.inj (Option.some.inj (hrun₁.symm.trans hrun))
  have hname : t₁.customersByName = t.customersByName := congrArg Rest.customersByName hrest
  have hhist : t₁.history = t.history ++ [t.rest.next .history] := congrArg Rest.history hrest
  have hidx : t₁.store.index = t.store.index := by rw [hstore]; rfl
  have hcell : ∀ k' p', ¬(k' = .history ∧ p' = t.rest.next .history) →
      t₁.store.cell k' p' = t.store.cell k' p' := fun k' p' hne => by
    rw [hstore, Store.setCell_cell_of_ne _ _ hne]
  refine ⟨h.grow (insertHistory_grows hrun) hname fun key p hp => by rw [hidx]; exact hp, hidx, ?_⟩
  refine Db.ext (congrArg Rest.items hrest) ?_ ?_
  · refine funext fun k' => funext fun id => ?_
    rw [row_eq, lookup_congr hidx]
    cases hq : t.lookup k' id with
    | none => exact (row_eq t k' id).trans (by rw [hq]; rfl) |>.symm
    | some q =>
      refine (hcell k' q ?_).trans (row_of_lookup_eq_some hq).symm
      rintro ⟨rfl, -⟩
      exact absurd hq (by simp [lookup, primary])
  · -- the rows that were there live, at other addresses
    simp only [db, hhist, List.filterMap_append]
    congr 1
    · refine List.filterMap_congr fun q hq => hcell .history q ?_
      rintro ⟨-, rfl⟩
      exact absurd (h.history _ hq) (by simp [t.cell_next])
    · rw [hstore]
      simp

end Tables

end TpccBench
