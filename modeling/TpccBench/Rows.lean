import Mathlib.Algebra.Ring.Rat
import Mathlib.Data.Int.Cast.Defs

/-!
# The rows of the nine tables

The structures of `tpccdb.h`, column by column. Integer columns are integers, the
character arrays are strings of bounded length (`TpccBench.CString`), the five columns
that make an address are grouped, and the amounts are of any type with the operations the
transactions use on them (`TpccBench.Money`): nothing about undo, keys or stock depends on
how amounts are rounded. The rationals are the instance for which amounts are exact.
-/

namespace TpccBench

/-! ### Amounts -/

/-- The type of amounts: the arithmetic of the transactions, and `%.2f`. -/
class Money (F : Type) extends Zero F, Add F, Sub F, Mul F, Div F, IntCast F where
  /-- `printf("%.2f")`. -/
  printf : F → List Char
  /-- No amount takes more than 39 digits before the point. -/
  length_printf_le (x : F) : (printf x).length ≤ 43

/-- A number that is not negative, rounded to the nearest integer, and between two of them to the even one. -/
def roundEven (x : ℚ) : ℕ :=
  let below := x.floor.toNat
  if x - below < 1 / 2 ∨ x - below = 1 / 2 ∧ below % 2 = 0 then below else below + 1

/-- The decimals of a rational number, rounded to two digits after the point, and cut
at the length the largest of the machine's amounts would have. -/
def printfRat (x : ℚ) : List Char :=
  let cents := roundEven ((if x < 0 then -x else x) * 100)
  let digits := fun n : ℕ => (toString n).toList
  ((if x < 0 then ['-'] else []) ++ digits (cents / 100) ++ ['.'] ++
    digits (cents / 10 % 10) ++ digits (cents % 10)).take 43

instance : Money ℚ where
  printf := printfRat
  length_printf_le _ := List.length_take_le _ _

/-! ### Strings -/

theorem toNat_ofNat_of_lt {n : ℕ} (h : n < 0xd800) : (Char.ofNat n).toNat = n := by
  rw [Char.ofNat, dif_pos (Or.inl h)]
  rfl

/-- The contents of a character array with room for `n` characters, up to the
terminating zero. -/
def CString (n : ℕ) : Type := {s : List Char // s.length ≤ n}

namespace CString

variable {m n : ℕ}

/-- The characters. -/
def chars (s : CString n) : List Char := s.1

theorem length_le (s : CString n) : s.chars.length ≤ n := s.2

@[ext] theorem ext {s s' : CString n} (h : s.chars = s'.chars) : s = s' := Subtype.ext h

instance : DecidableEq (CString n) := inferInstanceAs (DecidableEq {l : List Char // l.length ≤ n})

/-- `s[0] = '\0'`. -/
def empty : CString n := ⟨[], Nat.zero_le n⟩

instance : Inhabited (CString n) := ⟨empty⟩

/-- `strcpy` into an array: undefined if the string does not fit. -/
def strcpy (n : ℕ) (s : List Char) : Option (CString n) :=
  if h : s.length ≤ n then some ⟨s, h⟩ else none

theorem strcpy_eq_some {s : List Char} {s' : CString n} (h : strcpy n s = some s') : s'.chars = s := by
  rw [strcpy] at h
  split at h
  · exact (congrArg chars (Option.some.inj h)).symm
  · exact absurd h (by simp)

theorem strcpy_isSome {s : List Char} (h : s.length ≤ n) : (strcpy n s).isSome := by
  rw [strcpy, dif_pos h]
  rfl

/-- A string in a larger array. -/
def widen (h : m ≤ n) (s : CString m) : CString n := ⟨s.chars, s.length_le.trans h⟩

/-- A string for the end of a district's text in the array of `ol_dist_info`. -/
theorem distInfo_le : 24 ≤ 25 := by decide

end CString

/-! ### Rows -/

/-- `DATETIME_SIZE`. -/
abbrev datetimeSize : ℕ := 14

/-- The columns `street_1`, `street_2`, `city`, `state` and `zip`. -/
structure Address where
  street1 : CString 20
  street2 : CString 20
  city : CString 20
  state : CString 2
  zip : CString 9

/-- `ZERO_ADDRESS`. -/
def Address.zero : Address := ⟨.empty, .empty, .empty, .empty, .empty⟩

structure Item (F : Type) where
  iId : ℤ
  iImId : ℤ
  iPrice : F
  iName : CString 24
  iData : CString 50

structure Warehouse (F : Type) where
  wId : ℤ
  wTax : F
  wYtd : F
  wName : CString 10
  wAddress : Address

structure District (F : Type) where
  dId : ℤ
  dWId : ℤ
  dTax : F
  dYtd : F
  dNextOId : ℤ
  dName : CString 10
  dAddress : Address

structure Stock where
  sIId : ℤ
  sWId : ℤ
  sQuantity : ℤ
  sYtd : ℤ
  sOrderCnt : ℤ
  sRemoteCnt : ℤ
  sDist : Fin 10 → CString 24
  sData : CString 50

structure Customer (F : Type) where
  cId : ℤ
  cDId : ℤ
  cWId : ℤ
  cCreditLim : F
  cDiscount : F
  cBalance : F
  cYtdPayment : F
  cPaymentCnt : ℤ
  cDeliveryCnt : ℤ
  cFirst : CString 10
  cMiddle : CString 2
  cLast : CString 16
  cAddress : Address
  cPhone : CString 16
  cSince : CString datetimeSize
  cCredit : CString 2
  cData : CString 500

structure Order where
  oId : ℤ
  oCId : ℤ
  oDId : ℤ
  oWId : ℤ
  oCarrierId : ℤ
  oOlCnt : ℤ
  oAllLocal : ℤ
  oEntryD : CString datetimeSize

/-- The array `ol_dist_info` is filled to its last character when what is copied into it
is not terminated in time. -/
structure OrderLine (F : Type) where
  olOId : ℤ
  olDId : ℤ
  olWId : ℤ
  olNumber : ℤ
  olIId : ℤ
  olSupplyWId : ℤ
  olQuantity : ℤ
  olAmount : F
  olDeliveryD : CString datetimeSize
  olDistInfo : CString 25

structure NewOrder where
  noWId : ℤ
  noDId : ℤ
  noOId : ℤ

structure History (F : Type) where
  hCId : ℤ
  hCDId : ℤ
  hCWId : ℤ
  hDId : ℤ
  hWId : ℤ
  hAmount : F
  hDate : CString datetimeSize
  hData : CString 24

/-- `NULL_CARRIER_ID`. -/
def Order.nullCarrierId : ℤ := 0

/-! ### The kinds of rows that are allocated one by one -/

/-- The tables whose rows live at addresses of their own. The items live in a vector. -/
inductive Kind
  | warehouse
  | district
  | stock
  | customer
  | order
  | orderLine
  | newOrder
  | history
  deriving DecidableEq

/-- The rows of a table. -/
abbrev Row (F : Type) : Kind → Type
  | .warehouse => Warehouse F
  | .district => District F
  | .stock => Stock
  | .customer => Customer F
  | .order => Order
  | .orderLine => OrderLine F
  | .newOrder => NewOrder
  | .history => History F

end TpccBench
