import TpccBench.BTree.Search
import TpccBench.Keys
import TpccBench.Rows
import TpccBench.Lib.Memory
import TpccBench.Lib.OrderedMap
import TpccBench.Lib.Sim

/-!
# The tables of `tpcctables.h`

`TpccBench.Tables` has the data members of `TPCCTables`: the items in a vector, seven B+
trees and a map of addresses, the set of customers in name order, the vector of history
rows, and the memory that the rows of each kind are allocated in.

An operation (`TpccBench.Op`) fails where an assertion fails, a null or freed address is
dereferenced, an array or a signed integer overflows. Of the integers that is said of those
the keys are computed with; counters, and the index with which `eraseHistory` goes through
its vector, are unbounded. The trees have up to eight keys in a node (`KEYS_PER_INTERNAL`,
`KEYS_PER_LEAF`) and carry the proof that they are well formed, so that their own operations
do not fail.

The templates `insert`, `find` and `erase` of the source are operations here that have the
tree as a parameter; the functions of the source instantiate them.
-/

namespace TpccBench

/-- The address of a row. A pointer of the source is one of these, or null. -/
abbrev Ptr := ℕ

/-! ### The trees -/

/-- A `BPlusTree` of addresses, well formed. -/
def Tree : Type := {t : BPlusTree ℤ Ptr // t.WellFormed 8 8}

namespace Tree

def empty : Tree := ⟨BPlusTree.empty, BPlusTree.empty_wellFormed⟩

/-- `find`. -/
def find (t : Tree) (key : ℤ) : Option Ptr := t.1.find key

theorem insert_spec (t : Tree) (key : ℤ) (p : Ptr) :
    ∃ t', t.1.insert 8 8 key (some p) = some t' ∧ t'.WellFormed 8 8 ∧
      t'.contents = inserted (t.1.Loses 8 key) key (some p) t.1.contents :=
  BPlusTree.insert_spec (by decide) (by decide) t.2 key (some p)

theorem insert_isSome (t : Tree) (key : ℤ) (p : Ptr) :
    (t.1.insert 8 8 key (some p)).isSome := by
  obtain ⟨t', h, -⟩ := t.insert_spec key p
  simp [h]

/-- `insert`. -/
def insert (t : Tree) (key : ℤ) (p : Ptr) : Tree :=
  ⟨(t.1.insert 8 8 key (some p)).get (t.insert_isSome key p), by
    obtain ⟨t', h, hwf, -⟩ := t.insert_spec key p
    simpa [h] using hwf⟩

theorem stored_of_find {t : Tree} {key : ℤ} (h : (t.find key).isSome) :
    (t.1.contents.lookup key).isSome := by
  rw [find, BPlusTree.find_eq t.2] at h
  cases hl : t.1.contents.lookup key with
  | none => simp [hl] at h
  | some v => rfl

theorem del_isSome {t : Tree} {key : ℤ} (h : (t.find key).isSome) : (t.1.del 8 key).isSome := by
  obtain ⟨t', hdel, -⟩ := BPlusTree.del_spec t.2 (stored_of_find h)
  simp [hdel]

/-- `del` of a key that is found. -/
def del (t : Tree) (key : ℤ) (h : (t.find key).isSome) : Bool × Tree :=
  let r := (t.1.del 8 key).get (del_isSome h)
  (r.1, ⟨r.2, by
    obtain ⟨t', hdel, hwf, -⟩ := BPlusTree.del_spec t.2 (stored_of_find h)
    have hr : r = (true, t') := Option.some.inj ((Option.some_get _).trans hdel)
    rw [hr]
    exact hwf⟩)

@[simp] theorem find_empty (key : ℤ) : empty.find key = none := rfl

/-- An inserted key is found, unless it is the zero key. -/
theorem find_insert {t : Tree} {key : ℤ} (hkey : key ≠ 0) (p : Ptr) (k : ℤ) :
    (t.insert key p).find k = if k = key then some p else t.find k := by
  obtain ⟨t', h, hwf, hcont⟩ := t.insert_spec key p
  have hlost : ¬t.1.Loses 8 key := fun hl =>
    hkey (Node.eq_zero_of_loses t.1.depth t.2 (BPlusTree.within_all key) hl)
  have ht' : (t.insert key p).1 = t' := Option.some.inj ((Option.some_get _).trans h)
  rw [inserted, if_neg hlost] at hcont
  rw [find, find, ht', BPlusTree.find_eq hwf, BPlusTree.find_eq t.2, hcont, Assoc.lookup_upsert]
  split <;> rfl

/-- Whatever the key is, it is inserted, or nothing is found that was not found before. -/
theorem find_insert_or (t : Tree) (key : ℤ) (p : Ptr) :
    (∀ k, (t.insert key p).find k = if k = key then some p else t.find k) ∨
      ∀ k, (t.insert key p).find k = t.find k := by
  obtain ⟨t', h, hwf, hcont⟩ := t.insert_spec key p
  have ht' : (t.insert key p).1 = t' := Option.some.inj ((Option.some_get _).trans h)
  have hfind : ∀ k, (t.insert key p).find k = (t'.contents.lookup k).join := fun k => by
    rw [find, ht', BPlusTree.find_eq hwf]
  rw [inserted] at hcont
  split at hcont
  · refine Or.inr fun k => ?_
    rw [hfind, hcont, find, BPlusTree.find_eq t.2]
  · refine Or.inl fun k => ?_
    rw [hfind, hcont, Assoc.lookup_upsert, find, BPlusTree.find_eq t.2]
    split <;> rfl

/-- A deleted key is reported as deleted, and not found any more. -/
theorem find_del {t : Tree} {key : ℤ} (h : (t.find key).isSome) :
    (t.del key h).1 = true ∧
      ∀ k, (t.del key h).2.find k = if k = key then none else t.find k := by
  obtain ⟨t', hdel, hwf, hcont⟩ := BPlusTree.del_spec t.2 (stored_of_find h)
  have hr : (t.1.del 8 key).get (del_isSome h) = (true, t') :=
    Option.some.inj ((Option.some_get _).trans hdel)
  refine ⟨congrArg Prod.fst hr, fun k => ?_⟩
  have ht' : (t.del key h).2.1 = t' := congrArg Prod.snd hr
  rw [find, find, ht', BPlusTree.find_eq hwf, BPlusTree.find_eq t.2, hcont, Assoc.lookup_upsert]
  split <;> rfl

end Tree

/-- The members that are trees. -/
inductive TreeName
  | warehouses
  | stock
  | districts
  | customers
  | orders
  | ordersByCustomer
  | orderlines
  deriving DecidableEq

/-! ### The tables -/

/-- `TPCCTables`. -/
structure Tables (F : Type) where
  items : List (Item F)
  tree : TreeName → Tree
  customersByName : List Ptr
  neworders : OrderedMap ℤ Ptr
  history : List Ptr
  memory : (k : Kind) → Memory (Row F k)

/-- An operation on the tables. -/
abbrev Op (F α : Type) := Prog (Tables F) α

variable {F : Type}

/-- `TPCCTables()`. -/
def Tables.empty : Tables F where
  items := []
  tree _ := Tree.empty
  customersByName := []
  neworders := OrderedMap.empty
  history := []
  memory _ := Memory.empty

namespace Tables

def setTree (t : Tables F) (n : TreeName) (tree : Tree) : Tables F :=
  { t with tree := Function.update t.tree n tree }

def setMemory (t : Tables F) (k : Kind) (m : Memory (Row F k)) : Tables F :=
  { t with memory := Function.update t.memory k m }

/-- The row at an address. -/
def cell (t : Tables F) (k : Kind) (p : Ptr) : Option (Row F k) := (t.memory k).cell p

end Tables

namespace Op

open Prog

/-! ### Rows in memory -/

/-- Dereference a pointer. -/
def deref (k : Kind) (p : Option Ptr) : Op F (Row F k) := fun t =>
  p.bind fun p => (t.cell k p).map fun r => (r, t)

/-- Assign to what a pointer points to. -/
def assign (k : Kind) (p : Option Ptr) (r : Row F k) : Op F Unit := fun t =>
  p.bind fun p => ((t.memory k).write p r).map fun m => ((), t.setMemory k m)

/-- `new T(item)`. -/
def new (k : Kind) (r : Row F k) : Op F Ptr := fun t =>
  let m := (t.memory k).new r
  some (m.1, t.setMemory k m.2)

/-- `delete`. -/
def delete (k : Kind) (p : Ptr) : Op F Unit := fun t =>
  ((t.memory k).free p).map fun m => ((), t.setMemory k m)

/-! ### The templates -/

/-- `find`. -/
def findIn (n : TreeName) (key : ℤ) : Op F (Option Ptr) := fun t => some ((t.tree n).find key, t)

/-- `BPlusTree::insert` on a member. -/
def insertIn (n : TreeName) (key : ℤ) (p : Ptr) : Op F Unit := fun t =>
  some ((), t.setTree n ((t.tree n).insert key p))

/-- `insert`. -/
def insert (n : TreeName) (k : Kind) (key : ℤ) (item : Row F k) : Op F Ptr := do
  assert ((← findIn n key) = none)
  let copy ← new k item
  insertIn n key copy
  return copy

/-- `erase`. That `del` reports true and the key is not found afterwards is
`TpccBench.Tree.find_del`. -/
def erase (n : TreeName) (key : ℤ) (value : Ptr) : Op F Unit := fun t =>
  if h : (t.tree n).find key = some value then
    some ((), t.setTree n ((t.tree n).del key (by simp [h])).2)
  else none

/-! ### Items and warehouses -/

/-- `insertItem`. -/
def insertItem (item : Item F) : Op F Unit := fun t =>
  if item.iId = t.items.length + 1 then some ((), { t with items := t.items ++ [item] }) else none

/-- `findItem`. -/
def findItem (id : ℤ) : Op F (Option (Item F)) := fun t =>
  if 1 ≤ id then some (t.items[(id - 1).toNat]?, t) else none

/-- `insertWarehouse`. -/
def insertWarehouse (w : Warehouse F) : Op F Unit := do
  let _ ← insert .warehouses .warehouse w.wId w

/-- `findWarehouse`. -/
def findWarehouse (id : ℤ) : Op F (Option Ptr) := findIn .warehouses id

/-! ### Stock, districts, customers -/

/-- `insertStock`. -/
def insertStock (stock : Stock) : Op F Unit := do
  let key ← makeStockKey .checked stock.sWId stock.sIId
  let _ ← insert .stock .stock key stock

/-- `findStock`. -/
def findStock (wId sId : ℤ) : Op F (Option Ptr) := do
  let key ← makeStockKey .checked wId sId
  findIn .stock key

/-- `insertDistrict`. -/
def insertDistrict (district : District F) : Op F Unit := do
  let key ← makeDistrictKey .checked district.dWId district.dId
  let _ ← insert .districts .district key district

/-- `findDistrict`. -/
def findDistrict (wId dId : ℤ) : Op F (Option Ptr) := do
  let key ← makeDistrictKey .checked wId dId
  findIn .districts key

/-- What `CustomerByNameOrdering` compares. -/
structure NameKey where
  cWId : ℤ
  cDId : ℤ
  cLast : List Char
  cFirst : List Char

def nameKey (c : Customer F) : NameKey := ⟨c.cWId, c.cDId, c.cLast.chars, c.cFirst.chars⟩

/-- `CustomerByNameOrdering`. -/
def customerByNameOrdering (a b : NameKey) : Bool :=
  if a.cWId < b.cWId then true
  else if a.cWId > b.cWId then false
  else if a.cDId < b.cDId then true
  else if a.cDId > b.cDId then false
  else if a.cLast < b.cLast then true
  else if b.cLast < a.cLast then false
  else decide (a.cFirst < b.cFirst)

/-- The customers in name order, each with what it is compared by. -/
def byName : Op F (List (Ptr × NameKey)) := fun t =>
  (t.customersByName.mapM fun p => (t.cell .customer p).map fun c => (p, nameKey c)).map
    fun l => (l, t)

/-- How many customers `lower_bound` steps over. -/
def lowerBound (key : NameKey) (l : List (Ptr × NameKey)) : ℕ :=
  (l.takeWhile fun e => customerByNameOrdering e.2 key).length

/-- `insertCustomer`. -/
def insertCustomer (customer : Customer F) : Op F Unit := do
  let key ← makeCustomerKey .checked customer.cWId customer.cDId customer.cId
  let c ← insert .customers .customer key customer
  let l ← byName
  let i := lowerBound (nameKey customer) l
  assert (∀ e ∈ l[i]?, customerByNameOrdering (nameKey customer) e.2 = true)
  fun t => some ((), { t with customersByName := t.customersByName.insertIdx i c })

/-- `findCustomer`. -/
def findCustomer (wId dId cId : ℤ) : Op F (Option Ptr) := do
  let key ← makeCustomerKey .checked wId dId cId
  findIn .customers key

/-- The "next" `c_last` of `findCustomerByName`. -/
def nextLast (cLast : List Char) : List Char :=
  if cLast.length = 16 then
    cLast.dropLast ++ (cLast.getLast?.map fun c => Char.ofNat (c.toNat + 1)).toList
  else cLast ++ ['A']

/-- `findCustomerByName`. The loop goes through the customers after the first, and its
`middle` goes one on at every second of them. -/
def findCustomerByName (wId dId : ℤ) (cLast : List Char) : Op F (Option Ptr) := do
  assert (cLast.length ≤ 16)
  let l ← byName
  let it := lowerBound ⟨wId, dId, cLast, []⟩ l
  assert (∃ e ∈ l[it]?, e.2.cWId = wId ∧ e.2.cDId = dId ∧ e.2.cLast = cLast)
  let stop := lowerBound ⟨wId, dId, nextLast cLast, []⟩ l
  assert (it ≤ stop)
  let found := (l.drop it).take (stop - it)
  let middle ← found.tail.foldlM (fun (r : ℕ × ℕ) e => do
    assert (e.2.cLast = cLast)
    return (if r.2 % 2 = 1 then r.1 + 1 else r.1, r.2 + 1)) (0, 0)
  let customer := found[middle.1]?
  assert (∃ e ∈ customer, e.2.cWId = wId ∧ e.2.cDId = dId ∧ e.2.cLast = cLast)
  return customer.map Prod.fst

/-! ### Orders and order lines -/

/-- `insertOrder`. -/
def insertOrder (order : Order) : Op F Ptr := do
  let key ← makeOrderKey .checked order.oWId order.oDId order.oId
  let tuple ← insert .orders .order key order
  let key ← makeOrderByCustomerKey .checked order.oWId order.oDId order.oCId order.oId
  assert ((← findIn .ordersByCustomer key) = none)
  insertIn .ordersByCustomer key tuple
  return tuple

/-- `findOrder`. -/
def findOrder (wId dId oId : ℤ) : Op F (Option Ptr) := do
  let key ← makeOrderKey .checked wId dId oId
  findIn .orders key

/-- `eraseOrder`. -/
def eraseOrder (order : Ptr) : Op F Unit := do
  let o : Order ← deref .order order
  let primary ← makeOrderKey .checked o.oWId o.oDId o.oId
  erase .orders primary order
  let secondary ← makeOrderByCustomerKey .checked o.oWId o.oDId o.oCId o.oId
  erase .ordersByCustomer secondary order
  delete .order order

/-- `insertOrderLine`. -/
def insertOrderLine (orderline : OrderLine F) : Op F Ptr := do
  let key ← makeOrderLineKey .checked orderline.olWId orderline.olDId orderline.olOId
    orderline.olNumber
  insert .orderlines .orderLine key orderline

/-- `findOrderLine`. -/
def findOrderLine (wId dId oId number : ℤ) : Op F (Option Ptr) := do
  let key ← makeOrderLineKey .checked wId dId oId number
  findIn .orderlines key

/-- `eraseOrderLine`. -/
def eraseOrderLine (orderLine : Ptr) : Op F Unit := do
  let ol : OrderLine F ← deref .orderLine orderLine
  let key ← makeOrderLineKey .checked ol.olWId ol.olDId ol.olOId ol.olNumber
  erase .orderlines key orderLine
  delete .orderLine orderLine

/-! ### New orders and history -/

/-- `insertNewOrderObject`. -/
def insertNewOrderObject (neworder : Ptr) : Op F Unit := do
  let no : NewOrder ← deref .newOrder neworder
  let key ← makeNewOrderKey .checked no.noWId no.noDId no.noOId
  fun t => if t.neworders.find key = none then
    some ((), { t with neworders := t.neworders.insert key neworder }) else none

/-- `insertNewOrder`. -/
def insertNewOrder (wId dId oId : ℤ) : Op F Ptr := do
  let neworder ← new .newOrder (⟨wId, dId, oId⟩ : NewOrder)
  insertNewOrderObject neworder
  return neworder

/-- `findNewOrder`. -/
def findNewOrder (wId dId oId : ℤ) : Op F (Option Ptr) := do
  let key ← makeNewOrderKey .checked wId dId oId
  fun t => some (t.neworders.find key, t)

/-- `neworders_.lower_bound`. -/
def lowerBoundNewOrder (key : ℤ) : Op F (Option (ℤ × Ptr)) := fun t =>
  some (t.neworders.lowerBound key, t)

/-- `neworders_.erase`. -/
def unlinkNewOrder (key : ℤ) : Op F Unit := fun t =>
  some ((), { t with neworders := t.neworders.erase key })

/-- `eraseNewOrder`. -/
def eraseNewOrder (neworder : Ptr) : Op F Unit := do
  let no : NewOrder ← deref .newOrder neworder
  let key ← makeNewOrderKey .checked no.noWId no.noDId no.noOId
  let t ← get
  assert (t.neworders.find key = some neworder)
  unlinkNewOrder key
  delete .newOrder neworder

/-- `insertHistory`. -/
def insertHistory (history : History F) : Op F Ptr := do
  let h ← new .history history
  fun t => some (h, { t with history := t.history ++ [h] })

/-- The loop of `eraseHistory` and the `pop_back` after it: the last element moves to
where the row was found last. -/
def eraseFrom (history : Ptr) (l : List Ptr) : Option (List Ptr) :=
  let i := l.reverse.idxOf history
  if i < l.length then
    some ((l.set (l.length - 1 - i) (l.getLastD history)).dropLast)
  else none

/-- `eraseHistory`. -/
def eraseHistory (history : Ptr) : Op F Unit := do
  fun t => (eraseFrom history t.history).map fun l => ((), { t with history := l })
  delete .history history

end Op

end TpccBench
