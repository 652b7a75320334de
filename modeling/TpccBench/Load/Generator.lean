import TpccBench.Load.Random
import TpccBench.Tables.Insertions
import TpccBench.Tables.Transactions

/-!
# The load

`TPCCGenerator` fills the tables with random data. It draws a row and inserts it, in nested
loops over warehouses, districts, customers, orders and lines; the state of the load is the
tables and the number of numbers drawn (`TpccBench.Load`).

`selectUniqueIds` draws until it has found an id that is new. How often it may try is a
parameter: a load that has completed is one that completes with some number of tries.
-/

namespace TpccBench

open Prog

/-! ### The state of a load -/

/-- The tables, and how many numbers have been drawn. -/
structure Load (F : Type) where
  tables : Tables F
  drawn : ℕ

/-- A part of a load. -/
abbrev Gen (F α : Type) := Prog (Load F) α

variable {F : Type}

/-- A part of a load that draws numbers. -/
def Rx.gen {α : Type} (x : Rx α) : Gen F α := fun l =>
  (x l.drawn).map fun r => (r.1, { l with drawn := r.2 })

/-- A part of a load that inserts a row. -/
def Insertion.gen (i : Insertion F) : Gen F Unit := fun l =>
  (i.exec l.tables).map fun r => (r.1, { l with tables := r.2 })

/-- The ids from one on. -/
def idsTo (n : ℕ) : List ℤ := (List.range n).map fun i : ℕ => (i : ℤ) + 1

/-! ### The generator -/

/-- `TPCCGenerator`, with what its constructor asserts. -/
structure TPCCGenerator where
  random : RandomGenerator
  now : CString datetimeSize
  numItems : ℕ
  districtsPerWarehouse : ℕ
  customersPerDistrict : ℕ
  newOrdersPerDistrict : ℕ
  now_length : now.chars.length = datetimeSize
  items_range : 1 ≤ numItems ∧ numItems ≤ 100000
  districts_range : 1 ≤ districtsPerWarehouse ∧ districtsPerWarehouse ≤ 10
  customers_range : 1 ≤ customersPerDistrict ∧ customersPerDistrict ≤ 3000
  newOrders_range : 1 ≤ newOrdersPerDistrict ∧ newOrdersPerDistrict ≤ 900
  newOrders_le : newOrdersPerDistrict ≤ customersPerDistrict

/-- `ORIGINAL` is copied into a string. -/
def setOriginal (random : RandomGenerator) {n : ℕ} (s : CString n) : Rx (CString n) := do
  let position ← random.draw 0 (s.chars.length - 8)
  CString.strcpy n (s.chars.take position.toNat ++ "ORIGINAL".toList ++ s.chars.drop (position.toNat + 8))

/-- The inner loop of `selectUniqueIds`, with so many tries. -/
def drawNew (random : RandomGenerator) (lowerId upperId : ℤ) (rows : List ℤ) : ℕ → Rx ℤ
  | 0 => failure
  | tries + 1 => do
    let index ← random.draw lowerId upperId
    if index ∈ rows then drawNew random lowerId upperId rows tries else return index

/-- `selectUniqueIds`. -/
def selectUniqueIds (random : RandomGenerator) (tries numUnique : ℕ) (lowerId upperId : ℤ) : Rx (List ℤ) := do
  let rows ← (List.range numUnique).foldlM (fun rows _ => do
    let index ← drawNew random lowerId upperId rows tries
    return index :: rows) []
  assert (rows.length = numUnique)
  return rows

/-- `makeTax`. -/
def makeTax [Money F] (random : RandomGenerator) : Rx F := random.fixedPoint 4 0 (2000 / 10000)

/-- `makeZip`. -/
def makeZip (random : RandomGenerator) : Rx (CString 9) := do
  let zip ← random.nstring 9 4 4
  CString.strcpy 9 (zip.chars.take 4 ++ "11111".toList)

/-- The address columns, which are drawn alike for every row that has them. -/
def makeAddress (random : RandomGenerator) : Rx Address := do
  let street1 ← random.astring 20 10 20
  let street2 ← random.astring 20 10 20
  let city ← random.astring 20 10 20
  let state ← random.astring 2 2 2
  let zip ← makeZip random
  return { street1, street2, city, state, zip }

namespace TPCCGenerator

variable (g : TPCCGenerator) [Money F]

def generateItem (id : ℤ) (original : Bool) : Rx (Item F) := do
  assert (1 ≤ id ∧ id ≤ g.numItems)
  let iImId ← g.random.draw 1 10000
  let iPrice ← g.random.fixedPoint 2 1 100
  let iName ← g.random.astring 24 14 24
  let iData ← g.random.astring 50 26 50
  let iData ← (if original then setOriginal g.random iData else pure iData : Rx (CString 50))
  return { iId := id, iImId, iPrice, iName, iData }

def generateWarehouse (id : ℤ) : Rx (Warehouse F) := do
  assert (1 ≤ id ∧ id ≤ 100)
  let wTax ← makeTax g.random
  let wName ← g.random.astring 10 6 10
  let wAddress ← makeAddress g.random
  return { wId := id, wTax, wYtd := ((300000 : ℤ) : F), wName, wAddress }

omit [Money F] in
def generateStock (id wId : ℤ) (original : Bool) : Rx Stock := do
  assert (1 ≤ id ∧ id ≤ g.numItems)
  let sQuantity ← g.random.draw 10 100
  let sDist ← (List.range 10).mapM fun _ => g.random.astring 24 24 24
  let sData ← g.random.astring 50 26 50
  let sData ← (if original then setOriginal g.random sData else pure sData : Rx (CString 50))
  return {
    sIId := id
    sWId := wId
    sQuantity
    sYtd := 0
    sOrderCnt := 0
    sRemoteCnt := 0
    sDist := fun i => sDist.getD i.val .empty
    sData }

def generateDistrict (id wId : ℤ) : Rx (District F) := do
  assert (1 ≤ id ∧ id ≤ g.districtsPerWarehouse)
  let dTax ← makeTax g.random
  let dName ← g.random.astring 10 6 10
  let dAddress ← makeAddress g.random
  return {
    dId := id
    dWId := wId
    dTax
    dYtd := ((30000 : ℤ) : F)
    dNextOId := g.customersPerDistrict + 1
    dName
    dAddress }

def generateCustomer (id dId wId : ℤ) (badCredit : Bool) : Rx (Customer F) := do
  assert (1 ≤ id ∧ id ≤ g.customersPerDistrict)
  let cDiscount ← g.random.fixedPoint 4 0 (5000 / 10000)
  let cFirst ← g.random.astring 10 6 10
  let cMiddle ← CString.strcpy 2 "OE".toList
  let cLast ← (if id ≤ 1000 then liftM (makeLastName (id - 1))
    else g.random.lastName g.customersPerDistrict : Rx (CString 16))
  let cAddress ← makeAddress g.random
  let cPhone ← g.random.nstring 16 16 16
  let cCredit ← CString.strcpy 2 (if badCredit then Customer.badCredit else ['G', 'C'])
  let cData ← g.random.astring 500 300 500
  return {
    cId := id
    cDId := dId
    cWId := wId
    cCreditLim := ((50000 : ℤ) : F)
    cDiscount
    cBalance := ((-10 : ℤ) : F)
    cYtdPayment := ((10 : ℤ) : F)
    cPaymentCnt := 1
    cDeliveryCnt := 0
    cFirst
    cMiddle
    cLast
    cAddress
    cPhone
    cSince := g.now
    cCredit
    cData }

omit [Money F] in
def generateOrder (id cId dId wId : ℤ) (newOrder : Bool) : Rx Order := do
  let oCarrierId ← (if !newOrder then g.random.draw 1 10 else pure Order.nullCarrierId : Rx ℤ)
  let oOlCnt ← g.random.draw 5 15
  return {
    oId := id
    oCId := cId
    oDId := dId
    oWId := wId
    oCarrierId
    oOlCnt
    oAllLocal := 1
    oEntryD := g.now }

def generateOrderLine (number oId dId wId : ℤ) (newOrder : Bool) : Rx (OrderLine F) := do
  let olIId ← g.random.draw 1 100000
  let olAmount ← (if !newOrder then pure 0 else g.random.fixedPoint 2 (1 / 100) (999999 / 100) : Rx F)
  let olDistInfo ← g.random.astring 24 24 24
  return {
    olOId := oId
    olDId := dId
    olWId := wId
    olNumber := number
    olIId
    olSupplyWId := wId
    olQuantity := 5
    olAmount
    olDeliveryD := if !newOrder then g.now else .empty
    olDistInfo := olDistInfo.widen CString.distInfo_le }

def generateHistory (cId dId wId : ℤ) : Rx (History F) := do
  let hData ← g.random.astring 24 12 24
  return {
    hCId := cId
    hCDId := dId
    hCWId := wId
    hDId := dId
    hWId := wId
    hAmount := ((10 : ℤ) : F)
    hDate := g.now
    hData }

variable (tries : ℕ)

def makeItemsTable : Gen F Unit := do
  let originalRows ← (selectUniqueIds g.random tries (g.numItems / 10) 1 g.numItems).gen
  (idsTo g.numItems).forM fun i => do
    let item ← (g.generateItem i (i ∈ originalRows)).gen
    (Insertion.item item).gen

omit [Money F] in
def makeStock (wId : ℤ) : Gen F Unit := do
  let selectedRows ← (selectUniqueIds g.random tries (g.numItems / 10) 1 g.numItems).gen
  (idsTo g.numItems).forM fun i => do
    let s ← (g.generateStock i wId (i ∈ selectedRows)).gen
    (Insertion.stock s).gen

/-- A customer of a district, with a history row. -/
def makeCustomer (wId dId : ℤ) (selectedRows : List ℤ) (cId : ℤ) : Gen F Unit := do
  let c ← (g.generateCustomer cId dId wId (cId ∈ selectedRows)).gen
  (Insertion.customer c).gen
  let h ← (g.generateHistory cId dId wId).gen
  (Insertion.history h).gen

/-- An order of a district, with its lines. -/
def makeOrder (wId dId : ℤ) (permutation : List ℤ) (oId : ℤ) : Gen F Unit := do
  -- the last orders are new
  let newOrder : Bool := (g.customersPerDistrict : ℤ) - g.newOrdersPerDistrict < oId
  let cId ← permutation[(oId - 1).toNat]?
  let o ← (g.generateOrder oId cId dId wId newOrder).gen
  (Insertion.order o).gen
  (idsTo o.oOlCnt.toNat).forM fun olNumber => do
    let line ← (g.generateOrderLine olNumber oId dId wId newOrder).gen
    (Insertion.orderLine line).gen
  if newOrder then (Insertion.newOrder wId dId oId).gen

/-- A district of a warehouse. -/
def makeDistrict (wId dId : ℤ) : Gen F Unit := do
  let d ← (g.generateDistrict dId wId).gen
  (Insertion.district d).gen
  let selectedRows ← (selectUniqueIds g.random tries (g.customersPerDistrict / 10) 1
    g.customersPerDistrict).gen
  (idsTo g.customersPerDistrict).forM (g.makeCustomer wId dId selectedRows)
  let permutation ← (g.random.makePermutation 1 g.customersPerDistrict).gen
  (idsTo g.customersPerDistrict).forM (g.makeOrder wId dId permutation)

def makeWarehouseWithoutStock (wId : ℤ) : Gen F Unit := do
  let w ← (g.generateWarehouse wId).gen
  (Insertion.warehouse w).gen
  (idsTo g.districtsPerWarehouse).forM (g.makeDistrict tries wId)

def makeWarehouse (wId : ℤ) : Gen F Unit := do
  g.makeStock tries wId
  g.makeWarehouseWithoutStock tries wId

/-- The load of a database: the items, and the warehouses from one on. -/
def load (warehouses : ℕ) : Gen F Unit := do
  g.makeItemsTable tries
  (idsTo warehouses).forM (g.makeWarehouse tries)

/-- A generator whose answers go round, with ten districts and a new order in each. -/
def cycling (top : ℤ) (numItems customers : ℕ) (items_range : 1 ≤ numItems ∧ numItems ≤ 100000)
    (customers_range : 1 ≤ customers ∧ customers ≤ 3000) : TPCCGenerator where
  random := .cycle top
  now := ⟨List.replicate datetimeSize '0', Nat.le_of_eq List.length_replicate⟩
  numItems := numItems
  districtsPerWarehouse := 10
  customersPerDistrict := customers
  newOrdersPerDistrict := 1
  now_length := List.length_replicate
  items_range := items_range
  districts_range := by decide
  customers_range := customers_range
  newOrders_range := by decide
  newOrders_le := customers_range.1

end TPCCGenerator

end TpccBench
