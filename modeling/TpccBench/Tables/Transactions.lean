import TpccBench.Lib.Journal
import TpccBench.Tables.Model

/-!
# The transactions that write

New order, payment and delivery, statement by statement, with the undo buffer they
extend. A transaction runs on a call (`TpccBench.Call`): the tables, and the variable its
parameter `undo` points to. That parameter may be null, and the variable may hold a null
buffer; a statement `(*undo)->…` dereferences both.

The maps and sets of an undo buffer are hash tables, and so is the set of the remote
warehouses of an order. In which order they are gone through is a parameter
(`TpccBench.HashOrder`).
-/

namespace TpccBench

/-- The order in which the elements of a hash table come. -/
structure HashOrder where
  iter : (α : Type) → List α → List α
  perm (α : Type) (l : List α) : (iter α l).Perm l

/-- The elements come as they were inserted. -/
def HashOrder.asInserted : HashOrder := ⟨fun _ l => l, fun _ l => List.Perm.refl l⟩

/-- `TPCCUndo`. Each overload of `save` and `inserted` has its own map or set, here the one
of the kind of its rows. -/
abbrev TPCCUndo (F : Type) := Log Kind (Row F)

/-- What a transaction runs on. -/
structure Call (F : Type) where
  tables : Tables F
  /-- The parameter `undo`: null, or a variable that holds a buffer or null. -/
  undo : Option (Option (TPCCUndo F))

/-- A transaction, or a part of one. -/
abbrev Tx (F α : Type) := Prog (Call F) α

variable {F : Type}

/-- An operation on the tables, as a part of a transaction. -/
def Op.tx {α : Type} (x : Op F α) : Tx F α := fun c =>
  (x c.tables).map fun r => (r.1, { c with tables := r.2 })

/-! ### What is returned -/

/-- `NewOrderItem`. -/
structure NewOrderItem where
  iId : ℤ
  olSupplyWId : ℤ
  olQuantity : ℤ
  deriving DecidableEq

/-- `NewOrderOutput::ItemInfo`. -/
structure ItemInfo (F : Type) where
  sQuantity : ℤ
  iPrice : F
  olAmount : F
  brandGeneric : Char
  iName : CString 24

/-- An element that `resize` adds. -/
def ItemInfo.new [Money F] : ItemInfo F := ⟨0, 0, 0, Char.ofNat 0, .empty⟩

def ItemInfo.brand : Char := 'B'
def ItemInfo.generic : Char := 'G'

/-- `NewOrderOutput`. -/
structure NewOrderOutput (F : Type) where
  wTax : F
  dTax : F
  oId : ℤ
  cDiscount : F
  total : F
  items : List (ItemInfo F)
  cLast : CString 16
  cCredit : CString 2
  status : CString 25

/-- `NewOrderOutput()`. -/
def NewOrderOutput.new [Money F] : NewOrderOutput F where
  wTax := 0
  dTax := 0
  oId := 0
  cDiscount := 0
  total := 0
  items := []
  cLast := .empty
  cCredit := .empty
  status := .empty

/-- `INVALID_ITEM_STATUS`. -/
def NewOrderOutput.invalidItemStatus : CString 25 := ⟨"Item number is not valid".toList, by decide⟩

/-- `PaymentOutput`. -/
structure PaymentOutput (F : Type) where
  wAddress : Address
  dAddress : Address
  cCreditLim : F
  cDiscount : F
  cBalance : F
  cFirst : CString 10
  cMiddle : CString 2
  cLast : CString 16
  cAddress : Address
  cPhone : CString 16
  cSince : CString datetimeSize
  cCredit : CString 2
  cData : CString 500

/-- `DeliveryOrderInfo`. -/
structure DeliveryOrderInfo where
  dId : ℤ
  oId : ℤ
  deriving DecidableEq

/-- `Customer::BAD_CREDIT`. -/
def Customer.badCredit : List Char := ['B', 'C']

/-- `INVALID_QUANTITY`. -/
def invalidQuantity : ℤ := -1

/-- `newOrderRemoteWarehouses`: a set, its elements in the order of insertion. -/
def newOrderRemoteWarehouses (homeWarehouse : ℤ) (items : List NewOrderItem) : List ℤ :=
  items.foldl (fun out item =>
    if item.olSupplyWId ≠ homeWarehouse ∧ item.olSupplyWId ∉ out then out ++ [item.olSupplyWId]
    else out) []

/-- `newOrderCombine`. -/
def newOrderCombine (remoteQuantities : List ℤ) (output : NewOrderOutput F) :
    Option (NewOrderOutput F) := do
  guard (remoteQuantities.length = output.items.length)
  let items ← (remoteQuantities.zip output.items).mapM fun (q, info) =>
    if q ≠ invalidQuantity then
      if info.sQuantity = 0 then some { info with sQuantity := q } else none
    else some info
  return { output with items }

/-! ### Undo buffers -/

namespace Tx

/-- `allocateUndo`. -/
def allocateUndo : Tx F Unit := fun c =>
  some ((), { c with undo := c.undo.map fun u => some (u.getD Log.empty) })

/-- `if (undo != NULL) { (*undo)->save(row); }`. -/
def save (k : Kind) (p : Option Ptr) : Tx F Unit := fun c =>
  match c.undo with
  | none => some ((), c)
  | some none => none
  | some (some u) => p.bind fun p => (c.tables.cell k p).map fun r =>
      ((), { c with undo := some (some (u.save k p r)) })

/-- `if (undo != NULL) { (*undo)->inserted(row); }`. -/
def inserted (k : Kind) (p : Ptr) : Tx F Unit := fun c =>
  match c.undo with
  | none => some ((), c)
  | some none => none
  | some (some u) =>
    if p ∈ u.inserted k then none else some ((), { c with undo := some (some (u.insert k p)) })

/-- `if (undo != NULL) { (*undo)->deleted(neworder); } else { delete neworder; }`. -/
def deleted (p : Ptr) : Tx F Unit := fun c =>
  match c.undo with
  | none => (Op.delete .newOrder p).tx c
  | some none => none
  | some (some u) =>
    if p ∈ u.deleted .newOrder then none
    else some ((), { c with undo := some (some (u.delete .newOrder p)) })

end Tx

namespace Op

/-- `restoreFromMap`. -/
def restoreFromMap (h : HashOrder) (k : Kind) (map : List (Ptr × Row F k)) : Op F Unit :=
  (h.iter _ map).forM fun e => assign k e.1 e.2

/-- `eraseTuple`. -/
def eraseTuple (h : HashOrder) (set : List Ptr) (erase : Ptr → Op F Unit) : Op F Unit :=
  (h.iter _ set).forM erase

/-- `applyUndo`. After `applied()` the buffer owns no row any more. -/
def applyUndo (h : HashOrder) (undo : TPCCUndo F) : Op F Unit := do
  restoreFromMap h .warehouse (undo.modified .warehouse)
  restoreFromMap h .district (undo.modified .district)
  restoreFromMap h .customer (undo.modified .customer)
  restoreFromMap h .stock (undo.modified .stock)
  restoreFromMap h .order (undo.modified .order)
  restoreFromMap h .orderLine (undo.modified .orderLine)
  eraseTuple h (undo.inserted .order) eraseOrder
  eraseTuple h (undo.inserted .orderLine) eraseOrderLine
  eraseTuple h (undo.inserted .newOrder) eraseNewOrder
  eraseTuple h (undo.inserted .history) eraseHistory
  (h.iter _ (undo.deleted .newOrder)).forM insertNewOrderObject

/-- `freeUndo`: the destructor deletes the rows marked as deleted. -/
def freeUndo (h : HashOrder) (undo : TPCCUndo F) : Op F Unit :=
  (h.iter _ (undo.deleted .newOrder)).forM (delete .newOrder)

end Op

/-- The characters copied into `ol_dist_info`: 25 of them from `s_dist[district_id]` on. The
array has ten elements, and behind it lies `s_data`. -/
def Stock.distInfo (s : Stock) (districtId : ℤ) : Option (CString 25) :=
  if h : 0 ≤ districtId ∧ districtId < 10 then
    some ((s.sDist ⟨districtId.toNat, by omega⟩).widen (by decide))
  else if districtId = 10 then some ⟨s.sData.chars.take 25, List.length_take_le _ _⟩
  else none

/-- `strstr(s, "ORIGINAL") != NULL`. -/
def isOriginal (s : List Char) : Bool :=
  s.tails.any fun rest => "ORIGINAL".toList.isPrefixOf rest

namespace Tx

open Op Prog

/-! ### New order -/

/-- `findAndValidateItems`; `none` is the answer false. -/
def findAndValidateItems : List NewOrderItem → Op F (Option (List (Item F)))
  | [] => return some []
  | item :: items => do
    match ← findItem item.iId with
    | none => return none
    | some tuple => return (← findAndValidateItems items).map (tuple :: ·)

/-- One turn of the loop of `newOrderRemote`. The columns of a stock row are `int32_t`; they are only kept and
reported, so that an overflow leaves what a machine leaves there that wraps. -/
def updateStock (homeWarehouse remoteWarehouse : ℤ) (item : NewOrderItem) : Tx F ℤ := do
  if item.olSupplyWId ≠ remoteWarehouse then return invalidQuantity
  else do
    let stock ← (findStock item.olSupplyWId item.iId).tx
    save .stock stock
    let s : Stock ← (deref .stock stock).tx
    let sQuantity :=
      if s.sQuantity ≥ int32 (item.olQuantity + 10) then int32 (s.sQuantity - item.olQuantity)
      else int32 (int32 (s.sQuantity - item.olQuantity) + 91)
    (assign .stock stock
      ({ s with
        sQuantity
        sYtd := int32 (s.sYtd + item.olQuantity)
        sOrderCnt := int32 (s.sOrderCnt + 1)
        sRemoteCnt :=
          if item.olSupplyWId ≠ homeWarehouse then int32 (s.sRemoteCnt + 1)
          else s.sRemoteCnt } : Stock)).tx
    return sQuantity

/-- `newOrderRemote`; `none` is the answer false. -/
def newOrderRemote (homeWarehouse remoteWarehouse : ℤ) (items : List NewOrderItem) :
    Tx F (Option (List ℤ)) := do
  match ← (findAndValidateItems items).tx with
  | none => return none
  | some _ =>
    allocateUndo
    let quantities ← items.mapM (updateStock homeWarehouse remoteWarehouse)
    return some quantities

variable [Money F]

/-- One turn of the loop of `newOrderHome`: the order line, and what is reported of it. -/
def addOrderLine (warehouseId districtId oId : ℤ)
    (e : (NewOrderItem × Item F × ItemInfo F) × ℕ) : Tx F (ItemInfo F) := do
  let item := e.1.1
  let tuple := e.1.2.1
  let stock ← (findStock item.olSupplyWId item.iId).tx
  let s : Stock ← (deref .stock stock).tx
  let olDistInfo ← s.distInfo districtId
  let info := { e.1.2.2 with
    brandGeneric :=
      if isOriginal s.sData.chars && isOriginal tuple.iData.chars then ItemInfo.brand
      else ItemInfo.generic
    iName := tuple.iName
    iPrice := tuple.iPrice
    olAmount := (item.olQuantity : F) * tuple.iPrice }
  let ol ← Op.tx (insertOrderLine
    { olOId := oId
      olDId := districtId
      olWId := warehouseId
      olNumber := e.2 + 1
      olIId := item.iId
      olSupplyWId := item.olSupplyWId
      olQuantity := item.olQuantity
      olAmount := info.olAmount
      olDeliveryD := .empty
      olDistInfo })
  inserted .orderLine ol
  return info

/-- `newOrderHome` up to `newOrderCombine`; no quantities is the answer false. -/
def newOrderHomeUncombined (warehouseId districtId customerId : ℤ) (items : List NewOrderItem)
    (now : List Char) (output : NewOrderOutput F) :
    Tx F (Option (List ℤ) × NewOrderOutput F) := do
  let d ← (findDistrict warehouseId districtId).tx
  let dist : District F ← (deref .district d).tx
  let output := { output with dTax := dist.dTax, oId := dist.dNextOId }
  let existing ← (findOrder warehouseId districtId output.oId).tx
  assert (existing = none)
  let c ← (findCustomer warehouseId districtId customerId).tx
  let cust : Customer F ← (deref .customer c).tx
  let output := { output with
    cLast := cust.cLast
    cCredit := cust.cCredit
    cDiscount := cust.cDiscount }
  match ← (findAndValidateItems items).tx with
  | none => return (none, { output with status := NewOrderOutput.invalidItemStatus })
  | some itemTuples => do
    let allLocal := items.all fun item => item.olSupplyWId = warehouseId
    let output := { output with status := .empty }
    allocateUndo
    save .district d
    (assign .district d ({ dist with dNextOId := dist.dNextOId + 1 } : District F)).tx
    let w ← (findWarehouse warehouseId).tx
    let ware : Warehouse F ← (deref .warehouse w).tx
    let output := { output with wTax := ware.wTax }
    let oEntryD ← CString.strcpy datetimeSize now
    assert (now.length = datetimeSize)
    let o ← Op.tx (insertOrder
      { oWId := warehouseId
        oDId := districtId
        oId := output.oId
        oCId := customerId
        oCarrierId := Order.nullCarrierId
        oOlCnt := items.length
        oAllLocal := if allLocal then 1 else 0
        oEntryD })
    let no ← (insertNewOrder warehouseId districtId output.oId).tx
    inserted .order o
    inserted .newOrder no
    let outputItems := output.items.take items.length ++
      List.replicate (items.length - output.items.length) ItemInfo.new
    let infos ← (items.zip (itemTuples.zip outputItems)).zipIdx.mapM
      (addOrderLine warehouseId districtId output.oId)
    let output := { output with
      items := infos
      total := infos.foldl (fun total info => total + info.olAmount) 0 }
    -- the "remote" part for this warehouse
    match ← newOrderRemote warehouseId warehouseId items with
    | none => failure
    | some quantities => return (some quantities, output)

/-- `newOrderHome`. -/
def newOrderHome (warehouseId districtId customerId : ℤ) (items : List NewOrderItem)
    (now : List Char) (output : NewOrderOutput F) : Tx F (Bool × NewOrderOutput F) := do
  match ← newOrderHomeUncombined warehouseId districtId customerId items now output with
  | (none, output) => return (false, output)
  | (some quantities, output) => return (true, ← newOrderCombine quantities output)

/-- `newOrder`. -/
def newOrder (h : HashOrder) (warehouseId districtId customerId : ℤ) (items : List NewOrderItem)
    (now : List Char) (output : NewOrderOutput F) : Tx F (Bool × NewOrderOutput F) := do
  let (result, output) ← newOrderHome warehouseId districtId customerId items now output
  if !result then return (false, output)
  else do
    let warehouses := h.iter _ (newOrderRemoteWarehouses warehouseId items)
    let output ← warehouses.foldlM (fun output remote => do
      match ← newOrderRemote warehouseId remote items with
      | none => failure
      | some quantities => newOrderCombine quantities output) output
    return (true, output)

/-! ### Payment -/

/-- `zeroWarehouseDistrict`. -/
def zeroWarehouseDistrict (output : PaymentOutput F) : PaymentOutput F :=
  { output with wAddress := .zero, dAddress := .zero }

/-- `paymentHome`. -/
def paymentHome (warehouseId districtId cWarehouseId cDistrictId customerId : ℤ) (hAmount : F)
    (now : List Char) : Tx F (PaymentOutput F) := do
  let w ← (findWarehouse warehouseId).tx
  allocateUndo
  save .warehouse w
  let ware : Warehouse F ← (deref .warehouse w).tx
  (assign .warehouse w ({ ware with wYtd := ware.wYtd + hAmount } : Warehouse F)).tx
  let d ← (findDistrict warehouseId districtId).tx
  save .district d
  let dist : District F ← (deref .district d).tx
  (assign .district d ({ dist with dYtd := dist.dYtd + hAmount } : District F)).tx
  let hDate ← CString.strcpy datetimeSize now
  let hData ← CString.strcpy 24 (ware.wName.chars ++ [' ', ' ', ' ', ' '] ++ dist.dName.chars)
  let history ← Op.tx (insertHistory
    { hWId := warehouseId
      hDId := districtId
      hCWId := cWarehouseId
      hCDId := cDistrictId
      hCId := customerId
      hAmount
      hDate
      hData })
  inserted .history history
  return {
    wAddress := ware.wAddress
    dAddress := dist.dAddress
    cCreditLim := 0
    cDiscount := 0
    cBalance := 0
    cFirst := .empty
    cMiddle := .empty
    cLast := .empty
    cAddress := .zero
    cPhone := .empty
    cSince := .empty
    cCredit := .empty
    cData := .empty }

/-- `%d`. -/
def printInt (n : ℤ) : List Char := (toString n).toList

/-- What is put in front of `c_data`. -/
def paymentHistory (c : Customer F) (districtId warehouseId : ℤ) (hAmount : F) : List Char :=
  ['('] ++ printInt c.cId ++ [',', ' '] ++ printInt c.cDId ++ [',', ' '] ++ printInt c.cWId ++
    [',', ' '] ++ printInt districtId ++ [',', ' '] ++ printInt warehouseId ++ [',', ' '] ++
    Money.printf hAmount ++ [')', '\n']

/-- `c_data` after a payment: with bad credit the payment is put in front of it, and what
does not fit any more is dropped at the end. -/
def paymentData (c : Customer F) (districtId warehouseId : ℤ) (hAmount : F) :
    Option (CString 500) :=
  if c.cCredit.chars = Customer.badCredit then
    let history := paymentHistory c districtId warehouseId hAmount
    let characters := history.length
    if characters < 501 then
      let currentKeep := c.cData.chars.length
      let currentKeep := if currentKeep + characters > 500 then 500 - characters else currentKeep
      CString.strcpy 500 (history ++ c.cData.chars.take currentKeep)
    else none
  else some c.cData

/-- `internalPaymentRemote`. -/
def internalPaymentRemote (warehouseId districtId : ℤ) (c : Option Ptr) (hAmount : F)
    (output : PaymentOutput F) : Tx F (PaymentOutput F) := do
  allocateUndo
  save .customer c
  let cust : Customer F ← (deref .customer c).tx
  let cData ← paymentData cust districtId warehouseId hAmount
  let cust := { cust with
    cBalance := cust.cBalance - hAmount
    cYtdPayment := cust.cYtdPayment + hAmount
    cPaymentCnt := cust.cPaymentCnt + 1
    cData }
  (assign .customer c cust).tx
  return { output with
    cCreditLim := cust.cCreditLim
    cDiscount := cust.cDiscount
    cBalance := cust.cBalance
    cFirst := cust.cFirst
    cMiddle := cust.cMiddle
    cLast := cust.cLast
    cAddress := cust.cAddress
    cPhone := cust.cPhone
    cSince := cust.cSince
    cCredit := cust.cCredit
    cData := cust.cData }

/-- `paymentRemote`, by customer id. -/
def paymentRemote (warehouseId districtId cWarehouseId cDistrictId cId : ℤ) (hAmount : F)
    (output : PaymentOutput F) : Tx F (PaymentOutput F) := do
  let customer ← (findCustomer cWarehouseId cDistrictId cId).tx
  let output ← internalPaymentRemote warehouseId districtId customer hAmount output
  return zeroWarehouseDistrict output

/-- `paymentRemote`, by last name. -/
def paymentRemoteByName (warehouseId districtId cWarehouseId cDistrictId : ℤ) (cLast : List Char)
    (hAmount : F) (output : PaymentOutput F) : Tx F (PaymentOutput F) := do
  let customer ← (findCustomerByName cWarehouseId cDistrictId cLast).tx
  let output ← internalPaymentRemote warehouseId districtId customer hAmount output
  return zeroWarehouseDistrict output

/-- `payment`, by customer id. -/
def payment (warehouseId districtId cWarehouseId cDistrictId customerId : ℤ) (hAmount : F)
    (now : List Char) : Tx F (PaymentOutput F) := do
  let customer ← (findCustomer cWarehouseId cDistrictId customerId).tx
  let output ← paymentHome warehouseId districtId cWarehouseId cDistrictId customerId hAmount now
  internalPaymentRemote warehouseId districtId customer hAmount output

/-- `payment`, by last name. -/
def paymentByName (warehouseId districtId cWarehouseId cDistrictId : ℤ) (cLast : List Char)
    (hAmount : F) (now : List Char) : Tx F (PaymentOutput F) := do
  let customer ← (findCustomerByName cWarehouseId cDistrictId cLast).tx
  let cust : Customer F ← (deref .customer customer).tx
  let output ← paymentHome warehouseId districtId cWarehouseId cDistrictId cust.cId hAmount now
  internalPaymentRemote warehouseId districtId customer hAmount output

/-! ### Delivery -/

/-- One turn of the inner loop of `delivery`. -/
def deliverLine (warehouseId dId oId : ℤ) (now : List Char) (total : F) (i : ℕ) : Tx F F := do
  let line ← (findOrderLine warehouseId dId oId (i + 1)).tx
  save .orderLine line
  let l : OrderLine F ← (deref .orderLine line).tx
  assert (l.olDeliveryD.chars = [])
  let olDeliveryD ← CString.strcpy datetimeSize now
  assert (now.length = datetimeSize)
  (assign .orderLine line ({ l with olDeliveryD } : OrderLine F)).tx
  return total + l.olAmount

/-- One turn of the loop of `delivery`; `none` is a `continue`. -/
def deliverDistrict (warehouseId carrierId : ℤ) (now : List Char) (dId : ℤ) :
    Tx F (Option DeliveryOrderInfo) := do
  let key ← makeNewOrderKey .checked warehouseId dId 1
  match ← (lowerBoundNewOrder key).tx with
  | none => return none
  | some (iterator, neworder) => do
    let no : NewOrder ← (deref .newOrder neworder).tx
    if no.noDId ≠ dId ∨ no.noWId ≠ warehouseId then return none
    else do
      let oId := no.noOId
      (unlinkNewOrder iterator).tx
      deleted neworder
      let o ← (findOrder warehouseId dId oId).tx
      let order : Order ← (deref .order o).tx
      assert (order.oCarrierId = Order.nullCarrierId)
      save .order o
      (assign .order o ({ order with oCarrierId := carrierId } : Order)).tx
      let total ← (List.range order.oOlCnt.toNat).foldlM
        (deliverLine warehouseId dId oId now) 0
      let c ← (findCustomer warehouseId dId order.oCId).tx
      save .customer c
      let cust : Customer F ← (deref .customer c).tx
      (assign .customer c ({ cust with
        cBalance := cust.cBalance + total
        cDeliveryCnt := cust.cDeliveryCnt + 1 } : Customer F)).tx
      return some ⟨dId, oId⟩

/-- The district ids, as the loop of `delivery` counts them. -/
def districtIds : List ℤ := [1, 2, 3, 4, 5, 6, 7, 8, 9, 10]

/-- `delivery`. -/
def delivery (warehouseId carrierId : ℤ) (now : List Char) : Tx F (List DeliveryOrderInfo) := do
  allocateUndo
  let orders ← districtIds.mapM (deliverDistrict warehouseId carrierId now)
  return orders.reduceOption

end Tx

/-! ### All of them -/

/-- A transaction that writes, with its arguments. -/
inductive Txn (F : Type)
  | newOrder (h : HashOrder) (warehouseId districtId customerId : ℤ) (items : List NewOrderItem)
    (now : List Char) (output : NewOrderOutput F)
  | newOrderHome (warehouseId districtId customerId : ℤ) (items : List NewOrderItem)
    (now : List Char) (output : NewOrderOutput F)
  | newOrderRemote (homeWarehouse remoteWarehouse : ℤ) (items : List NewOrderItem)
  | payment (warehouseId districtId cWarehouseId cDistrictId customerId : ℤ) (hAmount : F)
    (now : List Char)
  | paymentByName (warehouseId districtId cWarehouseId cDistrictId : ℤ) (cLast : List Char)
    (hAmount : F) (now : List Char)
  | paymentHome (warehouseId districtId cWarehouseId cDistrictId customerId : ℤ) (hAmount : F)
    (now : List Char)
  | paymentRemote (warehouseId districtId cWarehouseId cDistrictId cId : ℤ) (hAmount : F)
    (output : PaymentOutput F)
  | paymentRemoteByName (warehouseId districtId cWarehouseId cDistrictId : ℤ) (cLast : List Char)
    (hAmount : F) (output : PaymentOutput F)
  | delivery (warehouseId carrierId : ℤ) (now : List Char)

/-- Execute a transaction, and do not look at what it returns. -/
def Txn.exec [Money F] : Txn F → Tx F Unit
  | newOrder h w d c items now output => do let _ ← Tx.newOrder h w d c items now output
  | newOrderHome w d c items now output => do let _ ← Tx.newOrderHome w d c items now output
  | newOrderRemote home remote items => do let _ ← Tx.newOrderRemote home remote items
  | payment w d cW cD c hAmount now => do let _ ← Tx.payment w d cW cD c hAmount now
  | paymentByName w d cW cD cLast hAmount now => do
    let _ ← Tx.paymentByName w d cW cD cLast hAmount now
  | paymentHome w d cW cD c hAmount now => do let _ ← Tx.paymentHome w d cW cD c hAmount now
  | paymentRemote w d cW cD c hAmount output => do
    let _ ← Tx.paymentRemote w d cW cD c hAmount output
  | paymentRemoteByName w d cW cD cLast hAmount output => do
    let _ ← Tx.paymentRemoteByName w d cW cD cLast hAmount output
  | delivery w carrierId now => do let _ ← Tx.delivery w carrierId now

/-- The buffer of a call. -/
def Call.buffer (c : Call F) : Option (TPCCUndo F) := c.undo.join

/-- **Commit a transaction**: pass a null `undo`, or free the buffer afterwards. -/
def Tx.commit {α : Type} (free : Option HashOrder) (x : Tx F α) : Op F α := fun t =>
  match free with
  | none => (x ⟨t, none⟩).map fun r => (r.1, r.2.tables)
  | some h => (x ⟨t, some none⟩).bind fun r =>
    match r.2.buffer with
    | none => some (r.1, r.2.tables)
    | some u => (Op.freeUndo h u r.2.tables).map fun r' => (r.1, r'.2)

end TpccBench
