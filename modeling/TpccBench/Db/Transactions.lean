import TpccBench.Db.Model
import TpccBench.Tables.Transactions

/-!
# What the transactions are for

The transactions on a database: rows are read and written by their ids, there are no
addresses, and nothing is recorded for an undo. The statements are in the order of the
source, since a transaction may fail at any of them.

A row that is written is a function of the row that was there. These functions have
names of their own, and what the claims about stock and money are about is these.
-/

namespace TpccBench

open Prog

variable {F : Type}

/-- A program on a database. -/
abbrev Dx (F α : Type) := Prog (Db F) α

/-! ### What becomes of the rows -/

/-- A stock row after a line of an order was taken from it. -/
def Stock.ordered (homeWarehouse : ℤ) (item : NewOrderItem) (s : Stock) : Stock :=
  { s with
    sQuantity :=
      if s.sQuantity ≥ int32 (item.olQuantity + 10) then int32 (s.sQuantity - item.olQuantity)
      else int32 (int32 (s.sQuantity - item.olQuantity) + 91)
    sYtd := int32 (s.sYtd + item.olQuantity)
    sOrderCnt := int32 (s.sOrderCnt + 1)
    sRemoteCnt :=
      if item.olSupplyWId ≠ homeWarehouse then int32 (s.sRemoteCnt + 1) else s.sRemoteCnt }

/-- A district after an order. -/
def District.ordered (d : District F) : District F := { d with dNextOId := d.dNextOId + 1 }

/-- The order that is placed. -/
def Order.placed (warehouseId districtId oId customerId : ℤ) (items : List NewOrderItem)
    (oEntryD : CString datetimeSize) : Order where
  oWId := warehouseId
  oDId := districtId
  oId := oId
  oCId := customerId
  oCarrierId := Order.nullCarrierId
  oOlCnt := items.length
  oAllLocal := if items.all fun item => item.olSupplyWId = warehouseId then 1 else 0
  oEntryD

/-- A line of it. -/
def OrderLine.placed (warehouseId districtId oId olNumber : ℤ) (item : NewOrderItem) (olAmount : F)
    (olDistInfo : CString 25) : OrderLine F where
  olOId := oId
  olDId := districtId
  olWId := warehouseId
  olNumber
  olIId := item.iId
  olSupplyWId := item.olSupplyWId
  olQuantity := item.olQuantity
  olAmount
  olDeliveryD := .empty
  olDistInfo

/-- An order that is delivered. -/
def Order.delivered (carrierId : ℤ) (o : Order) : Order := { o with oCarrierId := carrierId }

/-- A line that is delivered. -/
def OrderLine.delivered (olDeliveryD : CString datetimeSize) (ol : OrderLine F) : OrderLine F :=
  { ol with olDeliveryD }

section Amounts

variable [Money F]

/-- A warehouse after a payment. -/
def Warehouse.paid (hAmount : F) (w : Warehouse F) : Warehouse F := { w with wYtd := w.wYtd + hAmount }

/-- A district after a payment. -/
def District.paid (hAmount : F) (d : District F) : District F := { d with dYtd := d.dYtd + hAmount }

/-- A customer after a payment. The counters of a customer are numbers here: an `int32_t` overflows only after 2147483647
payments of the same customer. -/
def Customer.paid (hAmount : F) (cData : CString 500) (c : Customer F) : Customer F :=
  { c with
    cBalance := c.cBalance - hAmount
    cYtdPayment := c.cYtdPayment + hAmount
    cPaymentCnt := c.cPaymentCnt + 1
    cData }

/-- A customer after an order was delivered. -/
def Customer.delivered (total : F) (c : Customer F) : Customer F :=
  { c with
    cBalance := c.cBalance + total
    cDeliveryCnt := c.cDeliveryCnt + 1 }

end Amounts

/-! ### Statements -/

namespace Db

/-- A row is looked for: the ids have to make a key. -/
def find (k : Kind) (id : RowId k) : Dx F Unit := assert (primary k id).isSome

/-- The row with these ids, if there is one. -/
def peek (k : Kind) (id : RowId k) : Dx F (Option (Row F k)) := fun db => some (db.row k id, db)

/-- The row with these ids. -/
def get (k : Kind) (id : RowId k) : Dx F (Row F k) := fun db => (db.row k id).map fun r => (r, db)

/-- Write a row. -/
def set (k : Kind) (r : Row F k) : Dx F Unit := fun db =>
  some ((), db.setRow k (rowId k r) (some r))

/-- Insert a row. -/
def insert (k : Kind) (r : Row F k) : Dx F Unit := fun db =>
  if (rowLinks k r).isSome ∧ (db.row k (rowId k r)).isNone then
    some ((), db.setRow k (rowId k r) (some r))
  else none

/-- Take a row out. -/
def remove (k : Kind) (id : RowId k) : Dx F Unit := fun db => some ((), db.setRow k id none)

/-- Append a history row. -/
def insertHistory (h : History F) : Dx F Unit := fun db =>
  some ((), { db with history := db.history ++ [h] })

def findItem (id : ℤ) : Dx F (Option (Item F)) := fun db =>
  if 1 ≤ id then some (db.items[(id - 1).toNat]?, db) else none

/-- `o` is the oldest order of the district that is not delivered. -/
def Oldest (db : Db F) (warehouseId dId o : ℤ) : Prop :=
  (db.row .newOrder (warehouseId, dId, o)).isSome ∧
    ∀ o', (db.row .newOrder (warehouseId, dId, o')).isSome → o ≤ o'

open Classical in
/-- The oldest order of a district that is not delivered. -/
noncomputable def oldest (db : Db F) (warehouseId dId : ℤ) : Option ℤ :=
  if h : ∃ o, db.Oldest warehouseId dId o then some h.choose else none

theorem oldest_eq_some {db : Db F} {w d o : ℤ} : db.oldest w d = some o ↔ db.Oldest w d o := by
  rw [oldest]
  constructor
  · intro h
    split at h
    · next hex =>
      obtain rfl := Option.some.inj h
      exact hex.choose_spec
    · exact absurd h (by simp)
  · intro h
    have hex : ∃ o, db.Oldest w d o := ⟨o, h⟩
    rw [dif_pos hex]
    exact congrArg some (le_antisymm (hex.choose_spec.2 o h.1) (h.2 _ hex.choose_spec.1))

theorem oldest_eq_none {db : Db F} {w d : ℤ} : db.oldest w d = none ↔ ∀ o, ¬db.Oldest w d o := by
  rw [oldest]
  split
  · next hex => simpa using hex
  · next hex => simpa using hex

/-! ### New order -/

def findAndValidateItems : List NewOrderItem → Dx F (Option (List (Item F)))
  | [] => return some []
  | item :: items => do
    match ← findItem item.iId with
    | none => return none
    | some tuple => return (← findAndValidateItems items).map (tuple :: ·)

def updateStock (homeWarehouse remoteWarehouse : ℤ) (item : NewOrderItem) : Dx F ℤ := do
  if item.olSupplyWId ≠ remoteWarehouse then return invalidQuantity
  else do
    find .stock (item.olSupplyWId, item.iId)
    let s : Stock ← get .stock (item.olSupplyWId, item.iId)
    set .stock (s.ordered homeWarehouse item)
    return (s.ordered homeWarehouse item).sQuantity

def newOrderRemote (homeWarehouse remoteWarehouse : ℤ) (items : List NewOrderItem) :
    Dx F (Option (List ℤ)) := do
  match ← findAndValidateItems items with
  | none => return none
  | some _ => do
    let quantities ← items.mapM (updateStock homeWarehouse remoteWarehouse)
    return some quantities

variable [Money F]

/-- The information on a line that its stock row and its item determine. -/
def lineInfo (s : Stock) (e : NewOrderItem × Item F × ItemInfo F) : ItemInfo F :=
  { e.2.2 with
    brandGeneric :=
      if isOriginal s.sData.chars && isOriginal e.2.1.iData.chars then ItemInfo.brand
      else ItemInfo.generic
    iName := e.2.1.iName
    iPrice := e.2.1.iPrice
    olAmount := (e.1.olQuantity : F) * e.2.1.iPrice }

def addOrderLine (warehouseId districtId oId : ℤ)
    (e : (NewOrderItem × Item F × ItemInfo F) × ℕ) : Dx F (ItemInfo F) := do
  find .stock (e.1.1.olSupplyWId, e.1.1.iId)
  let s : Stock ← get .stock (e.1.1.olSupplyWId, e.1.1.iId)
  let olDistInfo ← s.distInfo districtId
  insert .orderLine
    (.placed warehouseId districtId oId (e.2 + 1) e.1.1 (lineInfo s e.1).olAmount olDistInfo)
  return lineInfo s e.1

def newOrderHomeUncombined (warehouseId districtId customerId : ℤ) (items : List NewOrderItem)
    (now : List Char) (output : NewOrderOutput F) :
    Dx F (Option (List ℤ) × NewOrderOutput F) := do
  find .district (warehouseId, districtId)
  let dist : District F ← get .district (warehouseId, districtId)
  let output := { output with dTax := dist.dTax, oId := dist.dNextOId }
  find .order (warehouseId, districtId, dist.dNextOId)
  let existing ← peek .order (warehouseId, districtId, dist.dNextOId)
  assert (existing.isNone)
  find .customer (warehouseId, districtId, customerId)
  let cust : Customer F ← get .customer (warehouseId, districtId, customerId)
  let output := { output with
    cLast := cust.cLast
    cCredit := cust.cCredit
    cDiscount := cust.cDiscount }
  match ← findAndValidateItems items with
  | none => return (none, { output with status := NewOrderOutput.invalidItemStatus })
  | some itemTuples => do
    let output := { output with status := .empty }
    set .district dist.ordered
    find .warehouse warehouseId
    let ware : Warehouse F ← get .warehouse warehouseId
    let output := { output with wTax := ware.wTax }
    let oEntryD ← CString.strcpy datetimeSize now
    assert (now.length = datetimeSize)
    insert .order (.placed warehouseId districtId dist.dNextOId customerId items oEntryD)
    insert .newOrder ⟨warehouseId, districtId, dist.dNextOId⟩
    let outputItems := output.items.take items.length ++
      List.replicate (items.length - output.items.length) ItemInfo.new
    let infos ← (items.zip (itemTuples.zip outputItems)).zipIdx.mapM
      (addOrderLine warehouseId districtId dist.dNextOId)
    let output := { output with
      items := infos
      total := infos.foldl (fun total info => total + info.olAmount) 0 }
    match ← newOrderRemote warehouseId warehouseId items with
    | none => failure
    | some quantities => return (some quantities, output)

def newOrderHome (warehouseId districtId customerId : ℤ) (items : List NewOrderItem)
    (now : List Char) (output : NewOrderOutput F) : Dx F (Bool × NewOrderOutput F) := do
  match ← newOrderHomeUncombined warehouseId districtId customerId items now output with
  | (none, output) => return (false, output)
  | (some quantities, output) => return (true, ← newOrderCombine quantities output)

/-- The parts of the other warehouses. -/
def newOrderRemotes (warehouseId : ℤ) (items : List NewOrderItem) (remotes : List ℤ)
    (output : NewOrderOutput F) : Dx F (NewOrderOutput F) :=
  remotes.foldlM (fun output remote => do
    match ← newOrderRemote warehouseId remote items with
    | none => failure
    | some quantities => newOrderCombine quantities output) output

def newOrder (h : HashOrder) (warehouseId districtId customerId : ℤ) (items : List NewOrderItem)
    (now : List Char) (output : NewOrderOutput F) : Dx F (Bool × NewOrderOutput F) := do
  let (result, output) ← newOrderHome warehouseId districtId customerId items now output
  if !result then return (false, output)
  else do
    let output ← newOrderRemotes warehouseId items
      (h.iter _ (newOrderRemoteWarehouses warehouseId items)) output
    return (true, output)

/-! ### Payment -/

def paymentHome (warehouseId districtId cWarehouseId cDistrictId customerId : ℤ) (hAmount : F)
    (now : List Char) : Dx F (PaymentOutput F) := do
  find .warehouse warehouseId
  let ware : Warehouse F ← get .warehouse warehouseId
  set .warehouse (ware.paid hAmount)
  find .district (warehouseId, districtId)
  let dist : District F ← get .district (warehouseId, districtId)
  set .district (dist.paid hAmount)
  let hDate ← CString.strcpy datetimeSize now
  let hData ← CString.strcpy 24 (ware.wName.chars ++ [' ', ' ', ' ', ' '] ++ dist.dName.chars)
  insertHistory
    { hWId := warehouseId
      hDId := districtId
      hCWId := cWarehouseId
      hCDId := cDistrictId
      hCId := customerId
      hAmount
      hDate
      hData }
  return {
    wAddress := ware.wAddress
    dAddress := dist.dAddress
    cCreditLim := 0
    cDiscount := 0
    cBalance := 0
    cFirst := .empty
    cMiddle := .empty
    cLast := .empty
    cAddress := .zero
    cPhone := .empty
    cSince := .empty
    cCredit := .empty
    cData := .empty }

/-- What is reported of the customer. -/
def paymentOutput (output : PaymentOutput F) (cust : Customer F) : PaymentOutput F :=
  { output with
    cCreditLim := cust.cCreditLim
    cDiscount := cust.cDiscount
    cBalance := cust.cBalance
    cFirst := cust.cFirst
    cMiddle := cust.cMiddle
    cLast := cust.cLast
    cAddress := cust.cAddress
    cPhone := cust.cPhone
    cSince := cust.cSince
    cCredit := cust.cCredit
    cData := cust.cData }

def internalPaymentRemote (warehouseId districtId : ℤ) (id : ℤ × ℤ × ℤ) (hAmount : F)
    (output : PaymentOutput F) : Dx F (PaymentOutput F) := do
  let cust : Customer F ← get .customer id
  let cData ← Tx.paymentData cust districtId warehouseId hAmount
  set .customer (cust.paid hAmount cData)
  return paymentOutput output (cust.paid hAmount cData)

def payment (warehouseId districtId cWarehouseId cDistrictId customerId : ℤ) (hAmount : F)
    (now : List Char) : Dx F (PaymentOutput F) := do
  find .customer (cWarehouseId, cDistrictId, customerId)
  let output ← paymentHome warehouseId districtId cWarehouseId cDistrictId customerId hAmount now
  internalPaymentRemote warehouseId districtId (cWarehouseId, cDistrictId, customerId) hAmount output

def paymentRemote (warehouseId districtId cWarehouseId cDistrictId cId : ℤ) (hAmount : F)
    (output : PaymentOutput F) : Dx F (PaymentOutput F) := do
  find .customer (cWarehouseId, cDistrictId, cId)
  let output ← internalPaymentRemote warehouseId districtId (cWarehouseId, cDistrictId, cId) hAmount
    output
  return Tx.zeroWarehouseDistrict output

/-! ### Delivery -/

def deliverLine (warehouseId dId oId : ℤ) (now : List Char) (total : F) (i : ℕ) : Dx F F := do
  find .orderLine (warehouseId, dId, oId, i + 1)
  let l : OrderLine F ← get .orderLine (warehouseId, dId, oId, i + 1)
  assert (l.olDeliveryD.chars = [])
  let olDeliveryD ← CString.strcpy datetimeSize now
  assert (now.length = datetimeSize)
  set .orderLine (l.delivered olDeliveryD)
  return total + l.olAmount

/-- Deliver an order. -/
def deliverOrder (warehouseId carrierId : ℤ) (now : List Char) (dId oId : ℤ) :
    Dx F (Option DeliveryOrderInfo) := do
  remove .newOrder (warehouseId, dId, oId)
  find .order (warehouseId, dId, oId)
  let order : Order ← get .order (warehouseId, dId, oId)
  assert (order.oCarrierId = Order.nullCarrierId)
  set .order (order.delivered carrierId)
  let total ← (List.range order.oOlCnt.toNat).foldlM (deliverLine warehouseId dId oId now) 0
  find .customer (warehouseId, dId, order.oCId)
  let cust : Customer F ← get .customer (warehouseId, dId, order.oCId)
  set .customer (cust.delivered total)
  return some ⟨dId, oId⟩

noncomputable def deliverDistrict (warehouseId carrierId : ℤ) (now : List Char) (dId : ℤ) :
    Dx F (Option DeliveryOrderInfo) := do
  find .newOrder (warehouseId, dId, 1)
  let db ← (StateT.get : Dx F (Db F))
  match db.oldest warehouseId dId with
  | none => return none
  | some oId => deliverOrder warehouseId carrierId now dId oId

noncomputable def delivery (warehouseId carrierId : ℤ) (now : List Char) :
    Dx F (List DeliveryOrderInfo) := do
  let orders ← Tx.districtIds.mapM (deliverDistrict warehouseId carrierId now)
  return orders.reduceOption

end Db

end TpccBench
