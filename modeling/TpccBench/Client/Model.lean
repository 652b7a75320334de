import TpccBench.Db.ByName
import TpccBench.Load.Generator
import TpccBench.Tables.Queries

/-!
# The client

`TPCCClient` draws the arguments of a transaction, calls the database, and asserts something of the
answer. What a call asks of the database is a value here (`TpccBench.Request`): a part of the client
draws it, and `TpccBench.Request.send` calls the function of the database it names. Nothing is recorded
for an undo.

What the clock writes comes with the call, and so does the order in which a hash table is gone
through. The state of a session is the tables and how many numbers have been drawn, as
for a load. Arguments of a call are drawn from left to right.
-/

namespace TpccBench

open Prog

/-- `Item::NUM_ITEMS`. -/
def Item.numItems : ℕ := 100000

def Order.minCarrierId : ℤ := 1
def Order.maxCarrierId : ℤ := 10
def Order.minOlCnt : ℤ := 5

/-- What `getDateTimestamp` writes. -/
abbrev Timestamp := {now : List Char // now.length = datetimeSize}

/-- What a client asks of the database. -/
inductive Request (F : Type)
  | stockLevel (warehouseId districtId threshold : ℤ)
  | orderStatus (warehouseId districtId : ℤ) (customer : CustomerChoice)
  | delivery (warehouseId carrierId : ℤ) (now : Timestamp)
  | payment (warehouseId districtId cWarehouseId cDistrictId : ℤ) (customer : CustomerChoice) (hAmount : F)
    (now : Timestamp)
  | newOrder (warehouseId districtId customerId : ℤ) (items : List NewOrderItem) (rollback : Bool)
    (now : Timestamp)

/-- The functions of the client that make a request. -/
inductive ClientFunction
  | doStockLevel
  | doOrderStatus
  | doDelivery
  | doPayment
  | doNewOrder
  | doOne

/-- A call of one of them, with what the clock writes, and the order in which the remote warehouses of an
order come. -/
structure ClientCall where
  function : ClientFunction
  now : Timestamp
  h : HashOrder

/-- `TPCCClient`, with what its constructor and its setters assert. A warehouse or a district that is
bound to zero is drawn. -/
structure TPCCClient where
  generator : RandomGenerator
  numItems : ℕ
  numWarehouses : ℕ
  districtsPerWarehouse : ℕ
  customersPerDistrict : ℕ
  remoteItemMilliP : ℤ
  boundWarehouse : ℤ
  boundDistrict : ℤ
  items_range : 1 ≤ numItems ∧ numItems ≤ Item.numItems
  warehouses_range : 1 ≤ numWarehouses ∧ numWarehouses ≤ 100
  districts_range : 1 ≤ districtsPerWarehouse ∧ districtsPerWarehouse ≤ 10
  customers_range : 1 ≤ customersPerDistrict ∧ customersPerDistrict ≤ 3000
  remote_range : 0 ≤ remoteItemMilliP ∧ remoteItemMilliP ≤ 1000
  boundWarehouse_range : 0 ≤ boundWarehouse ∧ boundWarehouse ≤ numWarehouses
  boundDistrict_range : 0 ≤ boundDistrict ∧ boundDistrict ≤ districtsPerWarehouse

namespace TPCCClient

def minStockLevelThreshold : ℤ := 10
def maxStockLevelThreshold : ℤ := 20
def minPaymentAmount : ℚ := 1
def maxPaymentAmount : ℚ := 5000
def maxOlQuantity : ℤ := 10

variable {F : Type} (client : TPCCClient)

/-! ### What is drawn -/

def generateWarehouse : Rx ℤ :=
  if client.boundWarehouse = 0 then client.generator.draw 1 client.numWarehouses
  else pure client.boundWarehouse

def generateDistrict : Rx ℤ :=
  if client.boundDistrict = 0 then client.generator.draw 1 client.districtsPerWarehouse
  else pure client.boundDistrict

def generateCID : Rx ℤ := client.generator.nuRand 1023 1 client.customersPerDistrict

def generateItemID : Rx ℤ := client.generator.nuRand 8191 1 client.numItems

/-- A customer by last name. -/
def generateLastName : Rx CustomerChoice := do
  let cLast ← client.generator.lastName client.customersPerDistrict
  return .lastName cLast.chars

def doStockLevel : Rx (Request F) := do
  let threshold ← client.generator.draw minStockLevelThreshold maxStockLevelThreshold
  let warehouseId ← client.generateWarehouse
  let districtId ← client.generateDistrict
  return .stockLevel warehouseId districtId threshold

def doOrderStatus : Rx (Request F) := do
  let y ← client.generator.draw 1 100
  if y ≤ 60 then do
    -- 60%: order status by last name
    let customer ← client.generateLastName
    let warehouseId ← client.generateWarehouse
    let districtId ← client.generateDistrict
    return .orderStatus warehouseId districtId customer
  else do
    -- 40%: order status by id
    assert (y > 60)
    let warehouseId ← client.generateWarehouse
    let districtId ← client.generateDistrict
    let cId ← client.generateCID
    return .orderStatus warehouseId districtId (.id cId)

def doDelivery (now : Timestamp) : Rx (Request F) := do
  let carrier ← client.generator.draw Order.minCarrierId Order.maxCarrierId
  let warehouseId ← client.generateWarehouse
  return .delivery warehouseId carrier now

/-- The warehouse and the district of the customer of a payment. -/
def generateCustomerDistrict (x wId dId : ℤ) : Rx (ℤ × ℤ) :=
  if client.numWarehouses = 1 ∨ x ≤ 85 then
    -- 85%: paying through own warehouse (or there is only 1 warehouse)
    pure (wId, dId)
  else do
    -- 15%: paying through another warehouse
    let cWId ← client.generator.numberExcluding 1 client.numWarehouses wId
    assert (cWId ≠ wId)
    let cDId ← client.generateDistrict
    return (cWId, cDId)

def doPayment [Money F] (now : Timestamp) : Rx (Request F) := do
  let x ← client.generator.draw 1 100
  let y ← client.generator.draw 1 100
  let wId ← client.generateWarehouse
  let dId ← client.generateDistrict
  let (cWId, cDId) ← client.generateCustomerDistrict x wId dId
  let hAmount ← client.generator.fixedPoint 2 minPaymentAmount maxPaymentAmount
  if y ≤ 60 then do
    -- 60%: payment by last name
    let customer ← client.generateLastName
    return .payment wId dId cWId cDId customer hAmount now
  else do
    -- 40%: payment by id
    assert (y > 60)
    let cId ← client.generateCID
    return .payment wId dId cWId cDId (.id cId) hAmount now

/-- One turn of the loop of `doNewOrder`. -/
def generateItem (wId olCnt : ℤ) (rollback : Bool) (i : ℕ) : Rx NewOrderItem := do
  let iId ← (if rollback ∧ (i : ℤ) + 1 = olCnt then pure ((Item.numItems : ℤ) + 1)
    else client.generateItemID : Rx ℤ)
  let millis ← client.generator.draw 1 1000
  let remote : Bool := millis ≤ client.remoteItemMilliP
  let olSupplyWId ← (if client.numWarehouses > 1 ∧ remote then
      client.generator.numberExcluding 1 client.numWarehouses wId
    else pure wId : Rx ℤ)
  let olQuantity ← client.generator.draw 1 maxOlQuantity
  return { iId, olSupplyWId, olQuantity }

def doNewOrder (now : Timestamp) : Rx (Request F) := do
  let wId ← client.generateWarehouse
  let olCnt ← client.generator.draw Order.minOlCnt Order.maxOlCnt
  -- 1% of transactions roll back
  let percent ← client.generator.draw 1 100
  let rollback : Bool := percent = 1
  let items ← (List.range olCnt.toNat).mapM (client.generateItem wId olCnt rollback)
  let dId ← client.generateDistrict
  let cId ← client.generateCID
  return .newOrder wId dId cId items rollback now

def doOne [Money F] (now : Timestamp) : Rx (Request F) := do
  let x ← client.generator.draw 1 100
  if x ≤ 4 then client.doStockLevel
  else if x ≤ 8 then client.doDelivery now
  else if x ≤ 12 then client.doOrderStatus
  else if x ≤ 12 + 43 then client.doPayment now
  else do
    assert (x > 100 - 45)
    client.doNewOrder now

/-- What a call asks for. -/
def request [Money F] (a : ClientCall) : Rx (Request F) :=
  match a.function with
  | .doStockLevel => client.doStockLevel
  | .doOrderStatus => client.doOrderStatus
  | .doDelivery => client.doDelivery a.now
  | .doPayment => client.doPayment a.now
  | .doNewOrder => client.doNewOrder a.now
  | .doOne => client.doOne a.now

end TPCCClient

/-! ### What is done -/

variable {F : Type} [Money F]

/-- `orderStatus`, either overload. -/
def CustomerChoice.orderStatus (w d : ℤ) : CustomerChoice → Op F (OrderStatusOutput F)
  | id cId => Op.orderStatus w d cId
  | lastName cLast => Op.orderStatusByName w d cLast

/-- **A call of the database**, with what is asserted of its answer. Only `doNewOrder` returns it. -/
def Request.send (h : HashOrder) : Request F → Op F (Option Bool)
  | stockLevel w d threshold => do
    let result ← Op.stockLevel w d threshold
    assert (result ≥ 0)
    return none
  | orderStatus w d customer => do
    let _ ← customer.orderStatus w d
    return none
  | delivery w carrier now => do
    let _ ← (Tx.delivery w carrier now.val).commit none
    return none
  | payment w d cW cD customer hAmount now => do
    let _ ← (customer.payment w d cW cD hAmount now.val).commit none
    return none
  | newOrder w d c items rollback now => do
    let (result, _) ← (Tx.newOrder h w d c items now.val .new).commit none
    assert (result = !rollback)
    return some result

/-- An operation on the tables, in a session. -/
def Op.session {α : Type} (x : Op F α) : Gen F α := fun s =>
  (x s.tables).map fun r => (r.1, { s with tables := r.2 })

namespace TPCCClient

variable (client : TPCCClient)

/-- **A call**: what it asks for, and what it returns. -/
def call (a : ClientCall) : Gen F (Request F × Option Bool) := do
  let r ← (client.request a).gen
  let result ← (r.send a.h).session
  return (r, result)

/-- **A session**: calls one after the other. -/
def session (calls : List ClientCall) : Gen F (List (Request F × Option Bool)) := calls.mapM client.call

end TPCCClient

end TpccBench
