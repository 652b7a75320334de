import TpccBench.Db.Rules

/-!
# What a payment does

The home part of a payment writes a warehouse and a district and appends a history row;
the other part writes a customer (`TpccBench.Db.paymentHome_iff`,
`TpccBench.Db.internalPaymentRemote_iff`). The rows are there or they are not, the rest does not fail: the
history data fit into their column, and what is put in front of `c_data` does, since the
ids that have rows are short.
-/

namespace TpccBench

open Prog

variable {F : Type} [Money F]

/-! ### The rows -/

omit [Money F] in
/-- The history row of a payment. -/
def History.paid (warehouseId districtId cWarehouseId cDistrictId customerId : ℤ) (hAmount : F)
    (hDate : CString datetimeSize) (ware : Warehouse F) (dist : District F) : History F where
  hWId := warehouseId
  hDId := districtId
  hCWId := cWarehouseId
  hCDId := cDistrictId
  hCId := customerId
  hAmount
  hDate
  hData := ⟨ware.wName.chars ++ [' ', ' ', ' ', ' '] ++ dist.dName.chars, by
    have hw := ware.wName.length_le
    have hd := dist.dName.length_le
    simp only [List.length_append, List.length_cons, List.length_nil]
    omega⟩

/-- What `paymentHome` reports. -/
def PaymentOutput.home (ware : Warehouse F) (dist : District F) : PaymentOutput F where
  wAddress := ware.wAddress
  dAddress := dist.dAddress
  cCreditLim := 0
  cDiscount := 0
  cBalance := 0
  cFirst := .empty
  cMiddle := .empty
  cLast := .empty
  cAddress := .zero
  cPhone := .empty
  cSince := .empty
  cCredit := .empty
  cData := .empty

/-- A payment at its home warehouse: the rows it finds. -/
structure PaidHome (F : Type) where
  ware : Warehouse F
  dist : District F
  hDate : CString datetimeSize

namespace PaidHome

omit [Money F] in
/-- The rows are there, and the date fits. -/
structure Valid (p : PaidHome F) (w d : ℤ) (now : List Char) (db : Db F) : Prop where
  warehouse : db.row .warehouse w = some p.ware
  district : db.row .district (w, d) = some p.dist
  date : CString.strcpy datetimeSize now = some p.hDate

/-- What the home part does. -/
def apply (p : PaidHome F) (w d cW cD c : ℤ) (hAmount : F) (db : Db F) : Db F :=
  { (db.setRow .warehouse w (some (p.ware.paid hAmount))).setRow .district (w, d)
      (some (p.dist.paid hAmount)) with
    history := db.history ++ [.paid w d cW cD c hAmount p.hDate p.ware p.dist] }

variable {p : PaidHome F} {w d cW cD c : ℤ} {hAmount : F} {db : Db F}

@[simp] theorem apply_items : (p.apply w d cW cD c hAmount db).items = db.items := rfl

@[simp] theorem apply_history : (p.apply w d cW cD c hAmount db).history =
    db.history ++ [.paid w d cW cD c hAmount p.hDate p.ware p.dist] := rfl

theorem apply_row : (p.apply w d cW cD c hAmount db).row = ((db.setRow .warehouse w
    (some (p.ware.paid hAmount))).setRow .district (w, d) (some (p.dist.paid hAmount))).row := rfl

theorem apply_row_of_ne {k : Kind} (h : k ∉ [Kind.warehouse, .district]) :
    (p.apply w d cW cD c hAmount db).row k = db.row k := by
  simp only [List.mem_cons, List.not_mem_nil, or_false, not_or] at h
  rw [apply_row, Db.setRow_row_of_ne _ h.2, Db.setRow_row_of_ne _ h.1]

theorem apply_warehouse (id : ℤ) : (p.apply w d cW cD c hAmount db).row .warehouse id =
    if id = w then some (p.ware.paid hAmount) else db.row .warehouse id := by
  rw [apply_row, Db.setRow_row_of_ne _ (by simp), Db.setRow_row]

theorem apply_district (id : ℤ × ℤ) : (p.apply w d cW cD c hAmount db).row .district id =
    if id = (w, d) then some (p.dist.paid hAmount) else db.row .district id := by
  rw [apply_row, Db.setRow_row, Db.setRow_row_of_ne _ (by simp)]

theorem apply_customer (id : ℤ × ℤ × ℤ) : (p.apply w d cW cD c hAmount db).row .customer id =
    db.row .customer id := by
  rw [apply_row_of_ne (by decide)]

theorem Valid.keyed {now : List Char} (h : p.Valid w d now db) (hk : db.Keyed) :
    (p.apply w d cW cD c hAmount db).Keyed := by
  have hk₁ := hk.write h.warehouse (r := p.ware.paid hAmount) (hk.ids h.warehouse :)
  have hdist : (db.setRow .warehouse w (some (p.ware.paid hAmount))).row .district (w, d) = some p.dist := by
    rw [Db.setRow_row_of_ne _ (by decide), h.district]
  have hk₂ := hk₁.write hdist (r := p.dist.paid hAmount) (hk.ids h.district :)
  exact hk₂.history _

end PaidHome

/-! ### The two parts -/

namespace Db

variable {db db' : Db F}

/-- **`paymentHome`.** -/
theorem paymentHome_iff (hk : db.Keyed) {w d cW cD c : ℤ} {hAmount : F} {now : List Char}
    {r : PaymentOutput F × Db F} :
    paymentHome w d cW cD c hAmount now db = some r ↔
      ∃ p : PaidHome F, p.Valid w d now db ∧
        r = (.home p.ware p.dist, p.apply w d cW cD c hAmount db) := by
  constructor
  · intro h
    obtain ⟨_, db₁, h₁, h⟩ := bind_eq_some h
    obtain ⟨-, rfl⟩ := find_eq_some h₁
    obtain ⟨ware, db₂, h₂, h⟩ := bind_eq_some h
    obtain ⟨hware, rfl⟩ := get_eq_some h₂
    obtain ⟨_, db₃, h₃, h⟩ := bind_eq_some h
    obtain rfl := set_eq_some h₃
    have hwid : rowId .warehouse ware = w := hk.ids hware
    have hwid : rowId .warehouse (ware.paid hAmount) = w := hwid
    rw [hwid] at h
    obtain ⟨_, db₄, h₄, h⟩ := bind_eq_some h
    obtain ⟨-, rfl⟩ := find_eq_some h₄
    obtain ⟨dist, db₅, h₅, h⟩ := bind_eq_some h
    obtain ⟨hdist, rfl⟩ := get_eq_some h₅
    rw [setRow_row_of_ne _ (by simp)] at hdist
    obtain ⟨_, db₆, h₆, h⟩ := bind_eq_some h
    obtain rfl := set_eq_some h₆
    have hdid : rowId .district dist = (w, d) := hk.ids hdist
    have hdid : rowId .district (dist.paid hAmount) = (w, d) := hdid
    rw [hdid] at h
    obtain ⟨hDate, db₇, h₇, h⟩ := bind_eq_some h
    obtain ⟨hdate, rfl⟩ := lift_eq_some h₇
    obtain ⟨hData, db₈, h₈, h⟩ := bind_eq_some h
    obtain ⟨hdata, rfl⟩ := lift_eq_some h₈
    obtain ⟨_, db₉, h₉, h⟩ := bind_eq_some h
    obtain rfl := insertHistory_eq_some h₉
    refine ⟨⟨ware, dist, hDate⟩, ⟨hware, hdist, hdate⟩, ?_⟩
    rw [CString.strcpy] at hdata
    split at hdata
    · obtain rfl := Option.some.inj hdata
      exact (Option.some.inj h).symm
    · exact absurd hdata (by simp)
  · rintro ⟨p, hp, rfl⟩
    have hwid : rowId .warehouse p.ware = w := hk.ids hp.warehouse
    have hwid : rowId .warehouse (p.ware.paid hAmount) = w := hwid
    have hdid : rowId .district p.dist = (w, d) := hk.ids hp.district
    have hdid : rowId .district (p.dist.paid hAmount) = (w, d) := hdid
    have hdist : (db.setRow .warehouse w (some (p.ware.paid hAmount))).row .district (w, d) = some p.dist := by
      rw [setRow_row_of_ne _ (by simp), hp.district]
    have hfind : find .district (w, d) (db.setRow .warehouse w (some (p.ware.paid hAmount))) =
        some ((), db.setRow .warehouse w (some (p.ware.paid hAmount))) := if_pos (hk.keys hp.district)
    have hdata : CString.strcpy 24 (p.ware.wName.chars ++ [' ', ' ', ' ', ' '] ++ p.dist.dName.chars) =
        some (History.paid w d cW cD c hAmount p.hDate p.ware p.dist).hData := dif_pos _
    rw [paymentHome, bind_apply, find_apply hk hp.warehouse, Option.bind_some, bind_apply,
      get_apply hp.warehouse, Option.bind_some, bind_apply, set_apply hwid, Option.bind_some, bind_apply,
      hfind, Option.bind_some, bind_apply, get_apply hdist, Option.bind_some, bind_apply, set_apply hdid,
      Option.bind_some, bind_apply, lift_apply, hp.date, Option.map_some, Option.bind_some, bind_apply,
      lift_apply, hdata]
    rfl

/-- **`internalPaymentRemote`.** -/
theorem internalPaymentRemote_iff (hk : db.Keyed) {w d : ℤ} {id : ℤ × ℤ × ℤ} {hAmount : F}
    {output : PaymentOutput F} {r : PaymentOutput F × Db F} :
    internalPaymentRemote w d id hAmount output db = some r ↔
      ∃ cust cData, db.row .customer id = some cust ∧ Tx.paymentData cust d w hAmount = some cData ∧
        r = (paymentOutput output (cust.paid hAmount cData),
          db.setRow .customer id (some (cust.paid hAmount cData))) := by
  constructor
  · intro h
    obtain ⟨cust, db₁, h₁, h⟩ := bind_eq_some h
    obtain ⟨hcust, rfl⟩ := get_eq_some h₁
    obtain ⟨cData, db₂, h₂, h⟩ := bind_eq_some h
    obtain ⟨hdata, rfl⟩ := lift_eq_some h₂
    obtain ⟨_, db₃, h₃, h⟩ := bind_eq_some h
    obtain rfl := set_eq_some h₃
    have hid : rowId .customer cust = id := hk.ids hcust
    have hid : rowId .customer (cust.paid hAmount cData) = id := hid
    rw [hid] at h
    exact ⟨cust, cData, hcust, hdata, (Option.some.inj h).symm⟩
  · rintro ⟨cust, cData, hcust, hdata, rfl⟩
    have hid : rowId .customer cust = id := hk.ids hcust
    have hid : rowId .customer (cust.paid hAmount cData) = id := hid
    rw [internalPaymentRemote, bind_apply, get_apply hcust, Option.bind_some, bind_apply, lift_apply, hdata,
      Option.map_some, Option.bind_some, bind_apply, set_apply hid]
    rfl

end Db

/-! ### What is put in front of `c_data` -/

theorem length_printInt_le {n : ℤ} {e : ℕ} (he : 0 < e) (h₀ : 0 ≤ n) (h : n < 10 ^ e) :
    (Tx.printInt n).length ≤ e := by
  obtain ⟨m, rfl⟩ := Int.eq_ofNat_of_zero_le h₀
  have hm : m < 10 ^ e := by exact_mod_cast h
  have hrepr : (Tx.printInt (m : ℤ)).length = (Nat.repr m).length := rfl
  rw [hrepr]
  exact Nat.repr_length m e he hm

/-- **There is room for it**, when the ids have rows. -/
theorem paymentData_isSome {db : Db F} (hk : db.Keyed) {cust : Customer F} {id : ℤ × ℤ × ℤ} {w d : ℤ}
    (hcust : db.row .customer id = some cust) (hdist : (db.row .district (w, d)).isSome) (hAmount : F) :
    (Tx.paymentData cust d w hAmount).isSome := by
  obtain ⟨dist, hdist⟩ := Option.isSome_iff_exists.mp hdist
  obtain ⟨⟨hw, hw'⟩, hd, hd'⟩ := primary_district_iff.mp (hk.keys hdist)
  have hid : (cust.cWId, cust.cDId, cust.cId) = id := hk.ids hcust
  obtain ⟨⟨hcw, hcw'⟩, ⟨hcd, hcd'⟩, hc, hc'⟩ := primary_customer_iff.mp (hid ▸ hk.keys hcust)
  simp only [Warehouse.maxWarehouseId, District.numPerWarehouse, Customer.numPerDistrict] at hw' hd' hcw' hcd' hc'
  have h₁ := length_printInt_le (e := 4) (by decide) (by omega) (by omega : cust.cId < 10 ^ 4)
  have h₂ := length_printInt_le (e := 4) (by decide) (by omega) (by omega : cust.cDId < 10 ^ 4)
  have h₃ := length_printInt_le (e := 4) (by decide) (by omega) (by omega : cust.cWId < 10 ^ 4)
  have h₄ := length_printInt_le (e := 4) (by decide) (by omega) (by omega : d < 10 ^ 4)
  have h₅ := length_printInt_le (e := 4) (by decide) (by omega) (by omega : w < 10 ^ 4)
  have h₆ := Money.length_printf_le hAmount
  have hlen : (Tx.paymentHistory cust d w hAmount).length ≤ 500 := by
    simp only [Tx.paymentHistory, List.length_append, List.length_cons, List.length_nil]
    omega
  have hdata := cust.cData.length_le
  rw [Tx.paymentData]
  split
  · rw [if_pos (by omega), CString.strcpy, dif_pos]
    · rfl
    · simp only [List.length_append, List.length_take]
      split <;> omega
  · rfl

/-! ### The whole payment -/

namespace Db

variable {db : Db F} {w d cW cD c : ℤ} {hAmount : F} {now : List Char} {output : PaymentOutput F}
  {r : PaymentOutput F × Db F}

/-- **`payment`.** -/
theorem payment_iff (hk : db.Keyed) :
    payment w d cW cD c hAmount now db = some r ↔
      ∃ (p : PaidHome F) (cust : Customer F) (cData : CString 500), p.Valid w d now db ∧
        db.row .customer (cW, cD, c) = some cust ∧ Tx.paymentData cust d w hAmount = some cData ∧
        r = (paymentOutput (.home p.ware p.dist) (cust.paid hAmount cData),
          (p.apply w d cW cD c hAmount db).setRow .customer (cW, cD, c) (some (cust.paid hAmount cData))) := by
  constructor
  · intro h
    obtain ⟨_, db₁, h₁, h⟩ := bind_eq_some h
    obtain ⟨-, rfl⟩ := find_eq_some h₁
    obtain ⟨out₁, db₂, h₂, h⟩ := bind_eq_some h
    obtain ⟨p, hp, heq⟩ := (paymentHome_iff hk).mp h₂
    obtain ⟨rfl, rfl⟩ := Prod.mk.inj heq
    obtain ⟨cust, cData, hcust, hdata, rfl⟩ := (internalPaymentRemote_iff (hp.keyed hk)).mp h
    rw [PaidHome.apply_row_of_ne (by simp)] at hcust
    exact ⟨p, cust, cData, hp, hcust, hdata, rfl⟩
  · rintro ⟨p, cust, cData, hp, hcust, hdata, rfl⟩
    rw [payment, bind_apply, find_apply hk hcust, Option.bind_some, bind_apply,
      (paymentHome_iff hk).mpr ⟨p, hp, rfl⟩, Option.bind_some]
    refine (internalPaymentRemote_iff (hp.keyed hk)).mpr ⟨cust, cData, ?_, hdata, rfl⟩
    rw [PaidHome.apply_row_of_ne (by simp), hcust]

/-- **`paymentRemote`.** -/
theorem paymentRemote_iff (hk : db.Keyed) :
    paymentRemote w d cW cD c hAmount output db = some r ↔
      ∃ (cust : Customer F) (cData : CString 500), db.row .customer (cW, cD, c) = some cust ∧
        Tx.paymentData cust d w hAmount = some cData ∧
        r = (Tx.zeroWarehouseDistrict (paymentOutput output (cust.paid hAmount cData)),
          db.setRow .customer (cW, cD, c) (some (cust.paid hAmount cData))) := by
  constructor
  · intro h
    obtain ⟨_, db₁, h₁, h⟩ := bind_eq_some h
    obtain ⟨-, rfl⟩ := find_eq_some h₁
    obtain ⟨out₁, db₂, h₂, hret⟩ := bind_eq_some h
    obtain ⟨cust, cData, hcust, hdata, heq⟩ := (internalPaymentRemote_iff hk).mp h₂
    obtain ⟨rfl, rfl⟩ := Prod.mk.inj heq
    exact ⟨cust, cData, hcust, hdata, (Option.some.inj hret).symm⟩
  · rintro ⟨cust, cData, hcust, hdata, rfl⟩
    rw [paymentRemote, bind_apply, find_apply hk hcust, Option.bind_some, bind_apply,
      (internalPaymentRemote_iff hk).mpr ⟨cust, cData, hcust, hdata, rfl⟩]
    rfl

end Db

end TpccBench
