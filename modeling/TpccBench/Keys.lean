import Mathlib.Tactic
import TpccBench.Lib.Word

/-!
# Packed keys

The tables are keyed by integers that pack the ids of a row. The `make*Key` functions of
`tpcctables.cc` check the range of each id and then compute on machine integers. What
happens on overflow is a parameter of the model (`TpccBench.Overflow`): signed overflow is
undefined, so a *checked* computation has no result then, and on a machine that wraps
it goes on modulo the word size. An intermediate result is a step of its own here.

Five of the seven functions never overflow and are injective on the ids they accept.
The two that have the order id in the most significant position do overflow, long before
the largest order id they accept: `TpccBench.orderKeyFits` and
`TpccBench.orderLineKeyFits` say exactly where, and up to there they are injective as
well (`TpccBench.keys_faithful`). No key of an order id up to `143164` overflows.
-/

namespace TpccBench

/-! ### The id ranges -/

def Warehouse.maxWarehouseId : ℤ := 100
def District.numPerWarehouse : ℤ := 10
def Customer.numPerDistrict : ℤ := 3000
def Stock.numStockPerWarehouse : ℤ := 100000
def Order.maxOrderId : ℤ := 10000000
def Order.maxOlCnt : ℤ := 15

/-- The range assertion on a warehouse id. -/
def validWarehouse (wId : ℤ) : Prop := 1 ≤ wId ∧ wId ≤ Warehouse.maxWarehouseId
/-- The range assertion on a district id. -/
def validDistrict (dId : ℤ) : Prop := 1 ≤ dId ∧ dId ≤ District.numPerWarehouse
/-- The range assertion on a customer id. -/
def validCustomer (cId : ℤ) : Prop := 1 ≤ cId ∧ cId ≤ Customer.numPerDistrict
/-- The range assertion on an item id. -/
def validStock (sId : ℤ) : Prop := 1 ≤ sId ∧ sId ≤ Stock.numStockPerWarehouse
/-- The range assertion on an order id. -/
def validOrder (oId : ℤ) : Prop := 1 ≤ oId ∧ oId ≤ Order.maxOrderId
/-- The range assertion on the number of an order line. -/
def validLine (number : ℤ) : Prop := 1 ≤ number ∧ number ≤ Order.maxOlCnt

instance (i : ℤ) : Decidable (validWarehouse i) := inferInstanceAs (Decidable (_ ∧ _))
instance (i : ℤ) : Decidable (validDistrict i) := inferInstanceAs (Decidable (_ ∧ _))
instance (i : ℤ) : Decidable (validCustomer i) := inferInstanceAs (Decidable (_ ∧ _))
instance (i : ℤ) : Decidable (validStock i) := inferInstanceAs (Decidable (_ ∧ _))
instance (i : ℤ) : Decidable (validOrder i) := inferInstanceAs (Decidable (_ ∧ _))
instance (i : ℤ) : Decidable (validLine i) := inferInstanceAs (Decidable (_ ∧ _))

/-! ### Machine arithmetic -/

/-- What a machine does when a signed result does not fit its word: nothing that the
language defines, or go on modulo the word size. -/
inductive Overflow
  | checked
  | wrapped

/-- A signed result of the given number of bits; `none` is an overflow. -/
def Overflow.word (m : Overflow) (bits : ℕ) (x : ℤ) : Option ℤ :=
  match m with
  | checked => if Word.Fits bits x then some x else none
  | wrapped => some (Word.wrap bits x)

/-- An `int32_t` result. -/
abbrev Overflow.int32 (m : Overflow) (x : ℤ) : Option ℤ := m.word 32 x

/-- The numbers of an `int32_t`. -/
abbrev FitsInt32 (x : ℤ) : Prop := Word.Fits 32 x

/-- An `int32_t` that is only kept, and asked for nothing: it goes on modulo the word size. -/
abbrev int32 (x : ℤ) : ℤ := Word.wrap 32 x

example (x : ℤ) : Overflow.wrapped.int32 x = some (int32 x) := rfl

/-- `((int64_t) top << 32) | low`, both non-negative. -/
def packWords (top low : ℤ) : ℤ := ((top.toNat <<< 32 ||| low.toNat : ℕ) : ℤ)

/-! ### The `make*Key` functions -/

/-- `makeStockKey`. -/
def makeStockKey (m : Overflow) (wId sId : ℤ) : Option ℤ := do
  guard (validWarehouse wId)
  guard (validStock sId)
  let x ← m.int32 (wId * Stock.numStockPerWarehouse)
  let id ← m.int32 (sId + x)
  guard (0 ≤ id)
  return id

/-- `makeDistrictKey`. -/
def makeDistrictKey (m : Overflow) (wId dId : ℤ) : Option ℤ := do
  guard (validWarehouse wId)
  guard (validDistrict dId)
  let x ← m.int32 (wId * District.numPerWarehouse)
  let id ← m.int32 (dId + x)
  guard (0 ≤ id)
  return id

/-- `makeCustomerKey`. -/
def makeCustomerKey (m : Overflow) (wId dId cId : ℤ) : Option ℤ := do
  guard (validWarehouse wId)
  guard (validDistrict dId)
  guard (validCustomer cId)
  let x ← m.int32 (wId * District.numPerWarehouse)
  let x ← m.int32 (x + dId)
  let x ← m.int32 (x * Customer.numPerDistrict)
  let id ← m.int32 (x + cId)
  guard (0 ≤ id)
  return id

/-- `makeOrderKey`. -/
def makeOrderKey (m : Overflow) (wId dId oId : ℤ) : Option ℤ := do
  guard (validWarehouse wId)
  guard (validDistrict dId)
  guard (validOrder oId)
  let x ← m.int32 (oId * District.numPerWarehouse)
  let x ← m.int32 (x + dId)
  let x ← m.int32 (x * Warehouse.maxWarehouseId)
  let id ← m.int32 (x + wId)
  guard (0 ≤ id)
  return id

/-- `makeOrderByCustomerKey`. -/
def makeOrderByCustomerKey (m : Overflow) (wId dId cId oId : ℤ) : Option ℤ := do
  guard (validWarehouse wId)
  guard (validDistrict dId)
  guard (validCustomer cId)
  guard (validOrder oId)
  let x ← m.int32 (wId * District.numPerWarehouse)
  let x ← m.int32 (x + dId)
  let x ← m.int32 (x * Customer.numPerDistrict)
  let topId ← m.int32 (x + cId)
  guard (0 ≤ topId)
  let id ← m.word 64 (packWords topId oId)
  guard (0 < id)
  return id

/-- `makeOrderLineKey`. -/
def makeOrderLineKey (m : Overflow) (wId dId oId number : ℤ) : Option ℤ := do
  guard (validWarehouse wId)
  guard (validDistrict dId)
  guard (validOrder oId)
  guard (validLine number)
  let x ← m.int32 (oId * District.numPerWarehouse)
  let x ← m.int32 (x + dId)
  let x ← m.int32 (x * Warehouse.maxWarehouseId)
  let x ← m.int32 (x + wId)
  let x ← m.int32 (x * Order.maxOlCnt)
  let id ← m.int32 (x + number)
  guard (0 ≤ id)
  return id

/-- `makeNewOrderKey`. The warehouse id is multiplied by `MAX_WAREHOUSE_ID`, where the
other keys multiply it by `NUM_PER_WAREHOUSE`. -/
def makeNewOrderKey (m : Overflow) (wId dId oId : ℤ) : Option ℤ := do
  guard (validWarehouse wId)
  guard (validDistrict dId)
  guard (validOrder oId)
  let x ← m.int32 (wId * Warehouse.maxWarehouseId)
  let upperId ← m.int32 (x + dId)
  guard (0 < upperId)
  let id ← m.word 64 (packWords upperId oId)
  guard (0 < id)
  return id

/-! ### Their values -/

theorem Overflow.word_of_fits (m : Overflow) {bits : ℕ} {x : ℤ} (hbits : 0 < bits)
    (hlo : -2 ^ (bits - 1) ≤ x) (hhi : x < 2 ^ (bits - 1)) : m.word bits x = some x := by
  cases m with
  | checked => exact if_pos ⟨hlo, hhi⟩
  | wrapped => exact congrArg some (Word.wrap_of_fits hbits ⟨hlo, hhi⟩)

theorem Overflow.int32_of_fits (m : Overflow) {x : ℤ} (hlo : -2147483648 ≤ x)
    (hhi : x < 2147483648) : m.int32 x = some x :=
  m.word_of_fits (by norm_num) (by norm_num; exact hlo) (by norm_num; exact hhi)

theorem Overflow.int64_of_fits (m : Overflow) {x : ℤ} (hlo : 0 ≤ x)
    (hhi : x < 9223372036854775808) : m.word 64 x = some x :=
  m.word_of_fits (by norm_num) (by norm_num; omega) (by norm_num; exact hhi)

theorem int32_of_fits {x : ℤ} (hlo : -2147483648 ≤ x) (hhi : x < 2147483648) : int32 x = x :=
  Word.wrap_of_fits (by norm_num) ⟨by norm_num; exact hlo, by norm_num; exact hhi⟩

theorem Overflow.checked_of_large {x : ℤ} (h : 2147483648 ≤ x) : checked.int32 x = none :=
  if_neg fun hx => by
    have := hx.2
    norm_num at this
    omega

theorem Overflow.checked_eq_some {x r : ℤ} (h : checked.int32 x = some r) : x = r ∧ x < 2147483648 := by
  rcases lt_or_ge x 2147483648 with hx | hx
  · rw [Overflow.int32, Overflow.word] at h
    split at h
    · exact ⟨Option.some.inj h, hx⟩
    · exact absurd h (by simp)
  · exact absurd (h.symm.trans (checked_of_large hx)) (by simp)

/-- The low word is free, so the bitwise or is an addition. -/
theorem packWords_eq {top low : ℤ} (htop : 0 ≤ top) (hlow : 0 ≤ low) (hlt : low < 2 ^ 32) :
    packWords top low = top * 2 ^ 32 + low := by
  obtain ⟨t, rfl⟩ := Int.eq_ofNat_of_zero_le htop
  obtain ⟨l, rfl⟩ := Int.eq_ofNat_of_zero_le hlow
  have hl : l < 2 ^ 32 := by exact_mod_cast hlt
  rw [packWords, Int.toNat_natCast, Int.toNat_natCast, ← Nat.shiftLeft_add_eq_or_of_lt hl,
    Nat.shiftLeft_eq]
  push_cast
  rfl

/-- Where `makeOrderKey` does not overflow. -/
def orderKeyFits (wId dId oId : ℤ) : Prop :=
  oId < 2147483 ∨ oId = 2147483 ∧ (dId < 6 ∨ dId = 6 ∧ wId ≤ 47)

/-- Where `makeOrderLineKey` does not overflow. -/
def orderLineKeyFits (wId dId oId number : ℤ) : Prop :=
  oId < 143165 ∨
    oId = 143165 ∧ (dId < 5 ∨ dId = 5 ∧ (wId < 76 ∨ wId = 76 ∧ number ≤ 7))

instance (w d o : ℤ) : Decidable (orderKeyFits w d o) := inferInstanceAs (Decidable (_ ∨ _))
instance (w d o n : ℤ) : Decidable (orderLineKeyFits w d o n) :=
  inferInstanceAs (Decidable (_ ∨ _))

theorem orderKeyFits_iff {w d o : ℤ} (hw : validWarehouse w) (hd : validDistrict d) :
    orderKeyFits w d o ↔ (o * 10 + d) * 100 + w < 2147483648 := by
  simp only [orderKeyFits, validWarehouse, validDistrict, Warehouse.maxWarehouseId,
    District.numPerWarehouse] at *
  omega

theorem orderLineKeyFits_iff {w d o n : ℤ} (hw : validWarehouse w) (hd : validDistrict d)
    (hn : validLine n) :
    orderLineKeyFits w d o n ↔ ((o * 10 + d) * 100 + w) * 15 + n < 2147483648 := by
  simp only [orderLineKeyFits, validWarehouse, validDistrict, validLine,
    Warehouse.maxWarehouseId, District.numPerWarehouse, Order.maxOlCnt] at *
  omega

section Values

variable (m : Overflow) {w d c s o n k : ℤ}

theorem makeStockKey_of_valid (hw : validWarehouse w) (hs : validStock s) :
    makeStockKey m w s = some (s + w * 100000) := by
  obtain ⟨hw₁, hw₂⟩ := id hw
  obtain ⟨hs₁, hs₂⟩ := id hs
  simp only [makeStockKey, guard, if_pos hw, if_pos hs]
  simp only [Warehouse.maxWarehouseId, Stock.numStockPerWarehouse] at *
  simp (disch := omega) only [m.int32_of_fits, if_pos, Option.pure_def, Option.bind_eq_bind,
    Option.bind_some]

theorem makeDistrictKey_of_valid (hw : validWarehouse w) (hd : validDistrict d) :
    makeDistrictKey m w d = some (d + w * 10) := by
  obtain ⟨hw₁, hw₂⟩ := id hw
  obtain ⟨hd₁, hd₂⟩ := id hd
  simp only [makeDistrictKey, guard, if_pos hw, if_pos hd]
  simp only [Warehouse.maxWarehouseId, District.numPerWarehouse] at *
  simp (disch := omega) only [m.int32_of_fits, if_pos, Option.pure_def, Option.bind_eq_bind,
    Option.bind_some]

theorem makeCustomerKey_of_valid (hw : validWarehouse w) (hd : validDistrict d)
    (hc : validCustomer c) : makeCustomerKey m w d c = some ((w * 10 + d) * 3000 + c) := by
  obtain ⟨hw₁, hw₂⟩ := id hw
  obtain ⟨hd₁, hd₂⟩ := id hd
  obtain ⟨hc₁, hc₂⟩ := id hc
  simp only [makeCustomerKey, guard, if_pos hw, if_pos hd, if_pos hc]
  simp only [Warehouse.maxWarehouseId, District.numPerWarehouse, Customer.numPerDistrict] at *
  simp (disch := omega) only [m.int32_of_fits, if_pos, Option.pure_def, Option.bind_eq_bind,
    Option.bind_some]

theorem makeOrderKey_of_valid (hw : validWarehouse w) (hd : validDistrict d) (ho : validOrder o)
    (hfits : orderKeyFits w d o) : makeOrderKey m w d o = some ((o * 10 + d) * 100 + w) := by
  rw [orderKeyFits_iff hw hd] at hfits
  obtain ⟨hw₁, hw₂⟩ := id hw
  obtain ⟨hd₁, hd₂⟩ := id hd
  obtain ⟨ho₁, ho₂⟩ := id ho
  simp only [makeOrderKey, guard, if_pos hw, if_pos hd, if_pos ho]
  simp only [Warehouse.maxWarehouseId, District.numPerWarehouse, Order.maxOrderId] at *
  simp (disch := omega) only [m.int32_of_fits, if_pos, Option.pure_def, Option.bind_eq_bind,
    Option.bind_some]

theorem makeOrderKey_of_not_fits (hw : validWarehouse w) (hd : validDistrict d)
    (ho : validOrder o) (hfits : ¬orderKeyFits w d o) : makeOrderKey .checked w d o = none := by
  rw [orderKeyFits_iff hw hd] at hfits
  obtain ⟨hw₁, hw₂⟩ := id hw
  obtain ⟨hd₁, hd₂⟩ := id hd
  obtain ⟨ho₁, ho₂⟩ := id ho
  simp only [makeOrderKey, guard, if_pos hw, if_pos hd, if_pos ho]
  simp only [Warehouse.maxWarehouseId, District.numPerWarehouse, Order.maxOrderId] at *
  -- either the product overflows, or the addition of the warehouse id to it
  by_cases hx : (o * 10 + d) * 100 < 2147483648
  · simp (disch := omega) only [Overflow.int32_of_fits, Option.pure_def, Option.bind_eq_bind,
      Option.bind_some]
    rw [Overflow.checked_of_large (by omega), Option.bind_none]
  · simp (disch := omega) only [Overflow.int32_of_fits, Option.pure_def, Option.bind_eq_bind,
      Option.bind_some]
    rw [Overflow.checked_of_large (by omega), Option.bind_none]

theorem makeOrderByCustomerKey_of_valid (hw : validWarehouse w) (hd : validDistrict d)
    (hc : validCustomer c) (ho : validOrder o) : makeOrderByCustomerKey m w d c o =
      some (((w * 10 + d) * 3000 + c) * 2 ^ 32 + o) := by
  obtain ⟨hw₁, hw₂⟩ := id hw
  obtain ⟨hd₁, hd₂⟩ := id hd
  obtain ⟨hc₁, hc₂⟩ := id hc
  obtain ⟨ho₁, ho₂⟩ := id ho
  simp only [makeOrderByCustomerKey, guard, if_pos hw, if_pos hd, if_pos hc, if_pos ho]
  simp only [Warehouse.maxWarehouseId, District.numPerWarehouse, Customer.numPerDistrict,
    Order.maxOrderId] at *
  simp (disch := omega) only [m.int32_of_fits, m.int64_of_fits, packWords_eq, if_pos,
    Option.pure_def, Option.bind_eq_bind, Option.bind_some]

theorem makeOrderLineKey_of_valid (hw : validWarehouse w) (hd : validDistrict d)
    (ho : validOrder o) (hn : validLine n) (hfits : orderLineKeyFits w d o n) :
    makeOrderLineKey m w d o n = some (((o * 10 + d) * 100 + w) * 15 + n) := by
  rw [orderLineKeyFits_iff hw hd hn] at hfits
  obtain ⟨hw₁, hw₂⟩ := id hw
  obtain ⟨hd₁, hd₂⟩ := id hd
  obtain ⟨ho₁, ho₂⟩ := id ho
  obtain ⟨hn₁, hn₂⟩ := id hn
  simp only [makeOrderLineKey, guard, if_pos hw, if_pos hd, if_pos ho, if_pos hn]
  simp only [Warehouse.maxWarehouseId, District.numPerWarehouse, Order.maxOrderId, Order.maxOlCnt] at *
  simp (disch := omega) only [m.int32_of_fits, if_pos, Option.pure_def, Option.bind_eq_bind,
    Option.bind_some]

theorem makeOrderLineKey_of_not_fits (hw : validWarehouse w) (hd : validDistrict d)
    (ho : validOrder o) (hn : validLine n) (hfits : ¬orderLineKeyFits w d o n) :
    makeOrderLineKey .checked w d o n = none := by
  rw [orderLineKeyFits_iff hw hd hn] at hfits
  obtain ⟨hw₁, hw₂⟩ := id hw
  obtain ⟨hd₁, hd₂⟩ := id hd
  obtain ⟨ho₁, ho₂⟩ := id ho
  obtain ⟨hn₁, hn₂⟩ := id hn
  simp only [makeOrderLineKey, guard, if_pos hw, if_pos hd, if_pos ho, if_pos hn]
  simp only [Warehouse.maxWarehouseId, District.numPerWarehouse, Order.maxOrderId, Order.maxOlCnt] at *
  -- the four results that can overflow, the first of them that does
  by_cases hx : (o * 10 + d) * 100 < 2147483648
  · by_cases hy : (o * 10 + d) * 100 + w < 2147483648
    · by_cases hz : ((o * 10 + d) * 100 + w) * 15 < 2147483648
      · simp (disch := omega) only [Overflow.int32_of_fits, Option.pure_def, Option.bind_eq_bind,
          Option.bind_some]
        rw [Overflow.checked_of_large (by omega), Option.bind_none]
      · simp (disch := omega) only [Overflow.int32_of_fits, Option.pure_def, Option.bind_eq_bind,
          Option.bind_some]
        rw [Overflow.checked_of_large (by omega), Option.bind_none]
    · simp (disch := omega) only [Overflow.int32_of_fits, Option.pure_def, Option.bind_eq_bind,
        Option.bind_some]
      rw [Overflow.checked_of_large (by omega), Option.bind_none]
  · simp (disch := omega) only [Overflow.int32_of_fits, Option.pure_def, Option.bind_eq_bind,
      Option.bind_some]
    rw [Overflow.checked_of_large (by omega), Option.bind_none]

theorem makeNewOrderKey_of_valid (hw : validWarehouse w) (hd : validDistrict d)
    (ho : validOrder o) : makeNewOrderKey m w d o = some ((w * 100 + d) * 2 ^ 32 + o) := by
  obtain ⟨hw₁, hw₂⟩ := id hw
  obtain ⟨hd₁, hd₂⟩ := id hd
  obtain ⟨ho₁, ho₂⟩ := id ho
  simp only [makeNewOrderKey, guard, if_pos hw, if_pos hd, if_pos ho]
  simp only [Warehouse.maxWarehouseId, District.numPerWarehouse, Order.maxOrderId] at *
  simp (disch := omega) only [m.int32_of_fits, m.int64_of_fits, packWords_eq, if_pos,
    Option.pure_def, Option.bind_eq_bind, Option.bind_some]

/-! Each key, read back: when there is one, and which one it is. -/

theorem makeStockKey_eq_some : makeStockKey .checked w s = some k ↔
    (validWarehouse w ∧ validStock s) ∧ k = s + w * 100000 := by
  constructor
  · intro h
    have hw : validWarehouse w := by
      by_contra hw
      simp [makeStockKey, guard, hw] at h
    have hs : validStock s := by
      by_contra hs
      simp [makeStockKey, guard, hs] at h
    rw [makeStockKey_of_valid _ hw hs] at h
    exact ⟨⟨hw, hs⟩, (Option.some.inj h).symm⟩
  · rintro ⟨⟨hw, hs⟩, rfl⟩
    exact makeStockKey_of_valid _ hw hs

theorem makeDistrictKey_eq_some : makeDistrictKey .checked w d = some k ↔
    (validWarehouse w ∧ validDistrict d) ∧ k = d + w * 10 := by
  constructor
  · intro h
    have hw : validWarehouse w := by
      by_contra hw
      simp [makeDistrictKey, guard, hw] at h
    have hd : validDistrict d := by
      by_contra hd
      simp [makeDistrictKey, guard, hd] at h
    rw [makeDistrictKey_of_valid _ hw hd] at h
    exact ⟨⟨hw, hd⟩, (Option.some.inj h).symm⟩
  · rintro ⟨⟨hw, hd⟩, rfl⟩
    exact makeDistrictKey_of_valid _ hw hd

theorem makeCustomerKey_eq_some : makeCustomerKey .checked w d c = some k ↔
    (validWarehouse w ∧ validDistrict d ∧ validCustomer c) ∧ k = (w * 10 + d) * 3000 + c := by
  constructor
  · intro h
    have hw : validWarehouse w := by
      by_contra hw
      simp [makeCustomerKey, guard, hw] at h
    have hd : validDistrict d := by
      by_contra hd
      simp [makeCustomerKey, guard, hd] at h
    have hc : validCustomer c := by
      by_contra hc
      simp [makeCustomerKey, guard, hc] at h
    rw [makeCustomerKey_of_valid _ hw hd hc] at h
    exact ⟨⟨hw, hd, hc⟩, (Option.some.inj h).symm⟩
  · rintro ⟨⟨hw, hd, hc⟩, rfl⟩
    exact makeCustomerKey_of_valid _ hw hd hc

theorem makeOrderKey_eq_some : makeOrderKey .checked w d o = some k ↔
    (validWarehouse w ∧ validDistrict d ∧ validOrder o ∧ orderKeyFits w d o) ∧
      k = (o * 10 + d) * 100 + w := by
  constructor
  · intro h
    have hw : validWarehouse w := by
      by_contra hw
      simp [makeOrderKey, guard, hw] at h
    have hd : validDistrict d := by
      by_contra hd
      simp [makeOrderKey, guard, hd] at h
    have ho : validOrder o := by
      by_contra ho
      simp [makeOrderKey, guard, ho] at h
    have hfits : orderKeyFits w d o := by
      by_contra hfits
      rw [makeOrderKey_of_not_fits hw hd ho hfits] at h
      simp at h
    rw [makeOrderKey_of_valid _ hw hd ho hfits] at h
    exact ⟨⟨hw, hd, ho, hfits⟩, (Option.some.inj h).symm⟩
  · rintro ⟨⟨hw, hd, ho, hfits⟩, rfl⟩
    exact makeOrderKey_of_valid _ hw hd ho hfits

theorem makeOrderByCustomerKey_eq_some : makeOrderByCustomerKey .checked w d c o = some k ↔
    (validWarehouse w ∧ validDistrict d ∧ validCustomer c ∧ validOrder o) ∧
      k = ((w * 10 + d) * 3000 + c) * 2 ^ 32 + o := by
  constructor
  · intro h
    have hw : validWarehouse w := by
      by_contra hw
      simp [makeOrderByCustomerKey, guard, hw] at h
    have hd : validDistrict d := by
      by_contra hd
      simp [makeOrderByCustomerKey, guard, hd] at h
    have hc : validCustomer c := by
      by_contra hc
      simp [makeOrderByCustomerKey, guard, hc] at h
    have ho : validOrder o := by
      by_contra ho
      simp [makeOrderByCustomerKey, guard, ho] at h
    rw [makeOrderByCustomerKey_of_valid _ hw hd hc ho] at h
    exact ⟨⟨hw, hd, hc, ho⟩, (Option.some.inj h).symm⟩
  · rintro ⟨⟨hw, hd, hc, ho⟩, rfl⟩
    exact makeOrderByCustomerKey_of_valid _ hw hd hc ho

theorem makeOrderLineKey_eq_some : makeOrderLineKey .checked w d o n = some k ↔
    (validWarehouse w ∧ validDistrict d ∧ validOrder o ∧ validLine n ∧
      orderLineKeyFits w d o n) ∧ k = ((o * 10 + d) * 100 + w) * 15 + n := by
  constructor
  · intro h
    have hw : validWarehouse w := by
      by_contra hw
      simp [makeOrderLineKey, guard, hw] at h
    have hd : validDistrict d := by
      by_contra hd
      simp [makeOrderLineKey, guard, hd] at h
    have ho : validOrder o := by
      by_contra ho
      simp [makeOrderLineKey, guard, ho] at h
    have hn : validLine n := by
      by_contra hn
      simp [makeOrderLineKey, guard, hn] at h
    have hfits : orderLineKeyFits w d o n := by
      by_contra hfits
      rw [makeOrderLineKey_of_not_fits hw hd ho hn hfits] at h
      simp at h
    rw [makeOrderLineKey_of_valid _ hw hd ho hn hfits] at h
    exact ⟨⟨hw, hd, ho, hn, hfits⟩, (Option.some.inj h).symm⟩
  · rintro ⟨⟨hw, hd, ho, hn, hfits⟩, rfl⟩
    exact makeOrderLineKey_of_valid _ hw hd ho hn hfits

theorem makeNewOrderKey_eq_some : makeNewOrderKey .checked w d o = some k ↔
    (validWarehouse w ∧ validDistrict d ∧ validOrder o) ∧ k = (w * 100 + d) * 2 ^ 32 + o := by
  constructor
  · intro h
    have hw : validWarehouse w := by
      by_contra hw
      simp [makeNewOrderKey, guard, hw] at h
    have hd : validDistrict d := by
      by_contra hd
      simp [makeNewOrderKey, guard, hd] at h
    have ho : validOrder o := by
      by_contra ho
      simp [makeNewOrderKey, guard, ho] at h
    rw [makeNewOrderKey_of_valid _ hw hd ho] at h
    exact ⟨⟨hw, hd, ho⟩, (Option.some.inj h).symm⟩
  · rintro ⟨⟨hw, hd, ho⟩, rfl⟩
    exact makeNewOrderKey_of_valid _ hw hd ho

/-! No key is zero, the one key a tree can lose. -/

theorem makeStockKey_ne_zero (h : makeStockKey .checked w s = some k) : k ≠ 0 := by
  obtain ⟨⟨⟨hw, -⟩, hs, -⟩, rfl⟩ := makeStockKey_eq_some.mp h
  omega

theorem makeDistrictKey_ne_zero (h : makeDistrictKey .checked w d = some k) : k ≠ 0 := by
  obtain ⟨⟨⟨hw, -⟩, hd, -⟩, rfl⟩ := makeDistrictKey_eq_some.mp h
  omega

theorem makeCustomerKey_ne_zero (h : makeCustomerKey .checked w d c = some k) : k ≠ 0 := by
  obtain ⟨⟨⟨hw, -⟩, ⟨hd, -⟩, hc, -⟩, rfl⟩ := makeCustomerKey_eq_some.mp h
  omega

theorem makeOrderKey_ne_zero (h : makeOrderKey .checked w d o = some k) : k ≠ 0 := by
  obtain ⟨⟨⟨hw, -⟩, ⟨hd, -⟩, ⟨ho, -⟩, -⟩, rfl⟩ := makeOrderKey_eq_some.mp h
  omega

theorem makeOrderByCustomerKey_ne_zero (h : makeOrderByCustomerKey .checked w d c o = some k) :
    k ≠ 0 := by
  obtain ⟨⟨⟨hw, -⟩, ⟨hd, -⟩, ⟨hc, -⟩, ho, -⟩, rfl⟩ := makeOrderByCustomerKey_eq_some.mp h
  omega

theorem makeOrderLineKey_ne_zero (h : makeOrderLineKey .checked w d o n = some k) : k ≠ 0 := by
  obtain ⟨⟨⟨hw, -⟩, ⟨hd, -⟩, ⟨ho, -⟩, ⟨hn, -⟩, -⟩, rfl⟩ := makeOrderLineKey_eq_some.mp h
  omega

/-! No two rows have the same key. -/

section Injective

variable {w' d' c' s' o' n' : ℤ}

theorem makeStockKey_inj (h : makeStockKey .checked w s = some k)
    (h' : makeStockKey .checked w' s' = some k) : w = w' ∧ s = s' := by
  obtain ⟨⟨-, hs⟩, rfl⟩ := makeStockKey_eq_some.mp h
  obtain ⟨⟨-, hs'⟩, heq⟩ := makeStockKey_eq_some.mp h'
  simp only [validStock, Stock.numStockPerWarehouse] at hs hs'
  omega

theorem makeDistrictKey_inj (h : makeDistrictKey .checked w d = some k)
    (h' : makeDistrictKey .checked w' d' = some k) : w = w' ∧ d = d' := by
  obtain ⟨⟨-, hd⟩, rfl⟩ := makeDistrictKey_eq_some.mp h
  obtain ⟨⟨-, hd'⟩, heq⟩ := makeDistrictKey_eq_some.mp h'
  simp only [validDistrict, District.numPerWarehouse] at hd hd'
  omega

theorem makeCustomerKey_inj (h : makeCustomerKey .checked w d c = some k)
    (h' : makeCustomerKey .checked w' d' c' = some k) : w = w' ∧ d = d' ∧ c = c' := by
  obtain ⟨⟨-, hd, hc⟩, rfl⟩ := makeCustomerKey_eq_some.mp h
  obtain ⟨⟨-, hd', hc'⟩, heq⟩ := makeCustomerKey_eq_some.mp h'
  simp only [validDistrict, District.numPerWarehouse, validCustomer,
    Customer.numPerDistrict] at hd hd' hc hc'
  omega

theorem makeOrderKey_inj (h : makeOrderKey .checked w d o = some k)
    (h' : makeOrderKey .checked w' d' o' = some k) : w = w' ∧ d = d' ∧ o = o' := by
  obtain ⟨⟨hw, hd, -⟩, rfl⟩ := makeOrderKey_eq_some.mp h
  obtain ⟨⟨hw', hd', -⟩, heq⟩ := makeOrderKey_eq_some.mp h'
  simp only [validWarehouse, Warehouse.maxWarehouseId, validDistrict,
    District.numPerWarehouse] at hw hw' hd hd'
  omega

theorem makeOrderByCustomerKey_inj (h : makeOrderByCustomerKey .checked w d c o = some k)
    (h' : makeOrderByCustomerKey .checked w' d' c' o' = some k) :
    w = w' ∧ d = d' ∧ c = c' ∧ o = o' := by
  obtain ⟨⟨-, hd, hc, ho⟩, rfl⟩ := makeOrderByCustomerKey_eq_some.mp h
  obtain ⟨⟨-, hd', hc', ho'⟩, heq⟩ := makeOrderByCustomerKey_eq_some.mp h'
  simp only [validDistrict, District.numPerWarehouse, validCustomer, Customer.numPerDistrict,
    validOrder, Order.maxOrderId] at hd hd' hc hc' ho ho'
  omega

theorem makeOrderLineKey_inj (h : makeOrderLineKey .checked w d o n = some k)
    (h' : makeOrderLineKey .checked w' d' o' n' = some k) :
    w = w' ∧ d = d' ∧ o = o' ∧ n = n' := by
  obtain ⟨⟨hw, hd, -, hn, -⟩, rfl⟩ := makeOrderLineKey_eq_some.mp h
  obtain ⟨⟨hw', hd', -, hn', -⟩, heq⟩ := makeOrderLineKey_eq_some.mp h'
  simp only [validWarehouse, Warehouse.maxWarehouseId, validDistrict, District.numPerWarehouse,
    validLine, Order.maxOlCnt] at hw hw' hd hd' hn hn'
  omega

theorem makeNewOrderKey_inj (h : makeNewOrderKey .checked w d o = some k)
    (h' : makeNewOrderKey .checked w' d' o' = some k) : w = w' ∧ d = d' ∧ o = o' := by
  obtain ⟨⟨-, hd, ho⟩, rfl⟩ := makeNewOrderKey_eq_some.mp h
  obtain ⟨⟨-, hd', ho'⟩, heq⟩ := makeNewOrderKey_eq_some.mp h'
  simp only [validDistrict, District.numPerWarehouse, validOrder, Order.maxOrderId] at hd hd' ho ho'
  omega

end Injective

end Values

/-! ### Faithfulness -/

/-- **Two keys are faithful** to the ids they are made from: neither computation overflows,
and on a machine that wraps the keys are equal only if the ids are. -/
def Faithful (key key' : Overflow → Option ℤ) (same : Prop) : Prop :=
  (key .checked).isSome ∧ (key' .checked).isSome ∧ (key .wrapped = key' .wrapped → same)

section Faithful

variable {w d c s o n w' d' c' s' o' n' : ℤ}

theorem makeStockKey_faithful (hw : validWarehouse w) (hs : validStock s)
    (hw' : validWarehouse w') (hs' : validStock s') :
    Faithful (makeStockKey · w s) (makeStockKey · w' s') (w = w' ∧ s = s') := by
  simp only [Faithful, makeStockKey_of_valid _ hw hs, makeStockKey_of_valid _ hw' hs',
    Option.isSome_some, Option.some.injEq, true_and]
  simp only [validWarehouse, validStock, Warehouse.maxWarehouseId,
    Stock.numStockPerWarehouse] at *
  omega

theorem makeDistrictKey_faithful (hw : validWarehouse w) (hd : validDistrict d)
    (hw' : validWarehouse w') (hd' : validDistrict d') :
    Faithful (makeDistrictKey · w d) (makeDistrictKey · w' d') (w = w' ∧ d = d') := by
  simp only [Faithful, makeDistrictKey_of_valid _ hw hd, makeDistrictKey_of_valid _ hw' hd',
    Option.isSome_some, Option.some.injEq, true_and]
  simp only [validDistrict, District.numPerWarehouse] at *
  omega

theorem makeCustomerKey_faithful (hw : validWarehouse w) (hd : validDistrict d)
    (hc : validCustomer c) (hw' : validWarehouse w') (hd' : validDistrict d')
    (hc' : validCustomer c') :
    Faithful (makeCustomerKey · w d c) (makeCustomerKey · w' d' c') (w = w' ∧ d = d' ∧ c = c') := by
  simp only [Faithful, makeCustomerKey_of_valid _ hw hd hc, makeCustomerKey_of_valid _ hw' hd' hc',
    Option.isSome_some, Option.some.injEq, true_and]
  simp only [validDistrict, validCustomer, District.numPerWarehouse, Customer.numPerDistrict] at *
  omega

theorem makeOrderKey_faithful_iff (hw : validWarehouse w) (hd : validDistrict d)
    (ho : validOrder o) (hw' : validWarehouse w') (hd' : validDistrict d') (ho' : validOrder o') :
    Faithful (makeOrderKey · w d o) (makeOrderKey · w' d' o') (w = w' ∧ d = d' ∧ o = o') ↔
      orderKeyFits w d o ∧ orderKeyFits w' d' o' := by
  constructor
  · rintro ⟨hk, hk', -⟩
    obtain ⟨k, hk⟩ := Option.isSome_iff_exists.mp hk
    obtain ⟨k', hk'⟩ := Option.isSome_iff_exists.mp hk'
    exact ⟨(makeOrderKey_eq_some.mp hk).1.2.2.2, (makeOrderKey_eq_some.mp hk').1.2.2.2⟩
  · rintro ⟨hf, hf'⟩
    simp only [Faithful, makeOrderKey_of_valid _ hw hd ho hf,
      makeOrderKey_of_valid _ hw' hd' ho' hf', Option.isSome_some, Option.some.injEq, true_and]
    simp only [validWarehouse, validDistrict, Warehouse.maxWarehouseId,
      District.numPerWarehouse] at hw hd hw' hd'
    omega

theorem makeOrderByCustomerKey_faithful (hw : validWarehouse w) (hd : validDistrict d)
    (hc : validCustomer c) (ho : validOrder o) (hw' : validWarehouse w') (hd' : validDistrict d')
    (hc' : validCustomer c') (ho' : validOrder o') :
    Faithful (makeOrderByCustomerKey · w d c o) (makeOrderByCustomerKey · w' d' c' o')
      (w = w' ∧ d = d' ∧ c = c' ∧ o = o') := by
  simp only [Faithful, makeOrderByCustomerKey_of_valid _ hw hd hc ho,
    makeOrderByCustomerKey_of_valid _ hw' hd' hc' ho', Option.isSome_some, Option.some.injEq,
    true_and]
  simp only [validDistrict, validCustomer, validOrder, District.numPerWarehouse,
    Customer.numPerDistrict, Order.maxOrderId] at *
  omega

theorem makeOrderLineKey_faithful_iff (hw : validWarehouse w) (hd : validDistrict d)
    (ho : validOrder o) (hn : validLine n) (hw' : validWarehouse w') (hd' : validDistrict d')
    (ho' : validOrder o') (hn' : validLine n') :
    Faithful (makeOrderLineKey · w d o n) (makeOrderLineKey · w' d' o' n')
        (w = w' ∧ d = d' ∧ o = o' ∧ n = n') ↔
      orderLineKeyFits w d o n ∧ orderLineKeyFits w' d' o' n' := by
  constructor
  · rintro ⟨hk, hk', -⟩
    obtain ⟨k, hk⟩ := Option.isSome_iff_exists.mp hk
    obtain ⟨k', hk'⟩ := Option.isSome_iff_exists.mp hk'
    exact ⟨(makeOrderLineKey_eq_some.mp hk).1.2.2.2.2,
      (makeOrderLineKey_eq_some.mp hk').1.2.2.2.2⟩
  · rintro ⟨hf, hf'⟩
    simp only [Faithful, makeOrderLineKey_of_valid _ hw hd ho hn hf,
      makeOrderLineKey_of_valid _ hw' hd' ho' hn' hf', Option.isSome_some, Option.some.injEq,
      true_and]
    simp only [validWarehouse, validDistrict, validLine, Warehouse.maxWarehouseId,
      District.numPerWarehouse, Order.maxOlCnt] at hw hd hw' hd' hn hn'
    omega

theorem makeNewOrderKey_faithful (hw : validWarehouse w) (hd : validDistrict d)
    (ho : validOrder o) (hw' : validWarehouse w') (hd' : validDistrict d') (ho' : validOrder o') :
    Faithful (makeNewOrderKey · w d o) (makeNewOrderKey · w' d' o')
      (w = w' ∧ d = d' ∧ o = o') := by
  simp only [Faithful, makeNewOrderKey_of_valid _ hw hd ho, makeNewOrderKey_of_valid _ hw' hd' ho',
    Option.isSome_some, Option.some.injEq, true_and]
  simp only [validDistrict, validOrder, District.numPerWarehouse, Order.maxOrderId] at *
  omega

end Faithful

/-- **Which keys are faithful**: of five functions all that they accept, and of the two
with the order id in the most significant position exactly those that fit. -/
theorem keys_faithful {w d c s o n w' d' c' s' o' n' : ℤ} (hw : validWarehouse w) (hd : validDistrict d)
    (hc : validCustomer c) (hs : validStock s) (ho : validOrder o) (hn : validLine n)
    (hw' : validWarehouse w') (hd' : validDistrict d') (hc' : validCustomer c') (hs' : validStock s')
    (ho' : validOrder o') (hn' : validLine n') :
    Faithful (makeStockKey · w s) (makeStockKey · w' s') (w = w' ∧ s = s') ∧
    Faithful (makeDistrictKey · w d) (makeDistrictKey · w' d') (w = w' ∧ d = d') ∧
    Faithful (makeCustomerKey · w d c) (makeCustomerKey · w' d' c') (w = w' ∧ d = d' ∧ c = c') ∧
    (Faithful (makeOrderKey · w d o) (makeOrderKey · w' d' o') (w = w' ∧ d = d' ∧ o = o') ↔
      orderKeyFits w d o ∧ orderKeyFits w' d' o') ∧
    (Faithful (makeOrderLineKey · w d o n) (makeOrderLineKey · w' d' o' n')
        (w = w' ∧ d = d' ∧ o = o' ∧ n = n') ↔
      orderLineKeyFits w d o n ∧ orderLineKeyFits w' d' o' n') ∧
    Faithful (makeOrderByCustomerKey · w d c o) (makeOrderByCustomerKey · w' d' c' o')
      (w = w' ∧ d = d' ∧ c = c' ∧ o = o') ∧
    Faithful (makeNewOrderKey · w d o) (makeNewOrderKey · w' d' o') (w = w' ∧ d = d' ∧ o = o') :=
  ⟨makeStockKey_faithful hw hs hw' hs', makeDistrictKey_faithful hw hd hw' hd',
    makeCustomerKey_faithful hw hd hc hw' hd' hc', makeOrderKey_faithful_iff hw hd ho hw' hd' ho',
    makeOrderLineKey_faithful_iff hw hd ho hn hw' hd' ho' hn',
    makeOrderByCustomerKey_faithful hw hd hc ho hw' hd' hc' ho',
    makeNewOrderKey_faithful hw hd ho hw' hd' ho'⟩

/-- The first order of a district and a much later one in another warehouse. -/
theorem keys_faithful_far_apart :
    Faithful (makeOrderKey · 1 1 1) (makeOrderKey · 47 6 2147483)
      ((1 : ℤ) = 47 ∧ (1 : ℤ) = 6 ∧ (1 : ℤ) = 2147483) := by
  have hone : validWarehouse 1 ∧ validDistrict 1 ∧ validCustomer 1 ∧ validStock 1 ∧ validOrder 1 ∧ validLine 1 := by
    decide
  obtain ⟨hw, hd, hc, hs, ho, hn⟩ := hone
  have hfar : validWarehouse 47 ∧ validDistrict 6 ∧ validOrder 2147483 := by decide
  obtain ⟨hw', hd', ho'⟩ := hfar
  exact (keys_faithful hw hd hc hs ho hn hw' hd' hc hs ho' hn).2.2.2.1.mpr ⟨by decide, by decide⟩

/-- An accepted order id whose key overflows – and on a machine that wraps it is the key
of another row. -/
theorem orderKey_not_faithful :
    ¬∀ w d o w' d' o', validWarehouse w → validDistrict d → validOrder o →
      validWarehouse w' → validDistrict d' → validOrder o' →
      Faithful (makeOrderKey · w d o) (makeOrderKey · w' d' o') (w = w' ∧ d = d' ∧ o = o') := by
  intro h
  obtain ⟨-, -, hsame⟩ := h 1 1 1 97 3 4294968 (by decide) (by decide) (by decide) (by decide)
    (by decide) (by decide)
  have hwrap : makeOrderKey .wrapped 1 1 1 = makeOrderKey .wrapped 97 3 4294968 := by decide
  exact absurd (hsame hwrap).1 (by decide)

/-- The order ids whose keys all fit, whatever the other ids are. -/
theorem orderKeyFits_of_le {o : ℤ} (h : o ≤ 143164) (w d : ℤ) : orderKeyFits w d o :=
  Or.inl (by omega)

theorem orderLineKeyFits_of_le {o : ℤ} (h : o ≤ 143164) (w d n : ℤ) : orderLineKeyFits w d o n :=
  Or.inl (by omega)

end TpccBench
