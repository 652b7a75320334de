import TpccBench.Keys
import TpccBench.Lib.Numeral
import TpccBench.Lib.Triple
import TpccBench.Rows

/-!
# The clock

`SystemClock::getDateTimestamp` writes the local time without a format string: `makeInt` writes a number from its
last digit back, and asserts that nothing is left of it. What `localtime_r` fills in is a parameter here
(`TpccBench.Tm`).

A division of C rounds towards zero, so `makeInt` also writes a negative number, with characters that are not
digits; where no field is negative a timestamp is read back, and timestamps compare as the times they were made of
(`TpccBench.timestamps_in_order`).
-/

namespace TpccBench

/-- The fields of `struct tm` that are written. -/
structure Tm where
  tmYear : ℤ
  tmMon : ℤ
  tmMday : ℤ
  tmHour : ℤ
  tmMin : ℤ
  tmSec : ℤ
deriving DecidableEq

/-- `'0' + digit`. -/
def digitChar (digit : ℤ) : Char := Char.ofNat (('0'.toNat : ℤ) + digit).toNat

/-- `makeInt`: the last digit, behind what is written of the rest. -/
def makeInt (value : ℤ) : ℕ → Option (List Char)
  | 0 => do
    guard (value = 0)
    return []
  | digits + 1 => do
    let output ← makeInt (value.tdiv 10) digits
    return output ++ [digitChar (value.tmod 10)]

/-- `SystemClock::getDateTimestamp`. -/
def getDateTimestamp (localCalendar : Tm) : Option (List Char) := do
  let tmYear ← Overflow.checked.int32 (localCalendar.tmYear + 1900)
  let year ← makeInt tmYear 4
  let tmMon ← Overflow.checked.int32 (localCalendar.tmMon + 1)
  let mon ← makeInt tmMon 2
  let mday ← makeInt localCalendar.tmMday 2
  let hour ← makeInt localCalendar.tmHour 2
  let min ← makeInt localCalendar.tmMin 2
  let sec ← makeInt localCalendar.tmSec 2
  let now := year ++ mon ++ mday ++ hour ++ min ++ sec
  guard (now.length = datetimeSize)
  return now

/-! ### A number -/

/-- The digit that a character is. -/
def digitValue (c : Char) : ℕ := c.toNat - '0'.toNat

theorem toNat_digitChar {d : ℕ} (h : d < 10) : (digitChar d).toNat = '0'.toNat + d := by
  have hsmall : '0'.toNat + 10 < 0xd000 := by decide
  rw [digitChar, ← Int.natCast_add, Int.toNat_natCast, toNat_ofNat_of_lt (by omega)]

theorem digitValue_digitChar {d : ℕ} (h : d < 10) : digitValue (digitChar d) = d := by
  rw [digitValue, toNat_digitChar h, Nat.add_sub_cancel_left]

theorem digitChar_lt_iff {d d' : ℕ} (h : d < 10) (h' : d' < 10) : digitChar d < digitChar d' ↔ d < d' := by
  rw [← Nat.add_lt_add_iff_left (k := '0'.toNat), ← toNat_digitChar h, ← toNat_digitChar h']
  exact Char.lt_def

/-- Digits are read from their characters. -/
theorem map_digitValue {ds : List ℕ} (h : ∀ d ∈ ds, d < 10) : (ds.map fun d : ℕ => digitChar d).map digitValue = ds := by
  rw [List.map_map]
  refine (List.map_congr_left fun d hd => ?_).trans ds.map_id
  exact digitValue_digitChar (h d hd)

/-- Digits compare as their characters. -/
theorem map_digitChar_lt_iff {ds ds' : List ℕ} (h : ∀ d ∈ ds, d < 10) (h' : ∀ d ∈ ds', d < 10) :
    (ds.map fun d : ℕ => digitChar d) < (ds'.map fun d : ℕ => digitChar d) ↔ ds < ds' := by
  refine Numeral.map_lt_map_iff ?_ ?_
  · intro d hd d' hd'
    exact digitChar_lt_iff (h d hd) (h' d' hd')
  · intro d hd d' hd' heq
    rw [← digitValue_digitChar (h d hd), heq, digitValue_digitChar (h' d' hd')]

/-- **A number is written** if it is not too large, whatever its sign. -/
theorem makeInt_isSome_iff {value : ℤ} {digits : ℕ} : (makeInt value digits).isSome ↔ value.natAbs < 10 ^ digits := by
  induction digits generalizing value with
  | zero =>
    rw [makeInt, pow_zero, Nat.lt_one_iff, Int.natAbs_eq_zero]
    by_cases h : value = 0 <;> simp [h, guard]
  | succ digits ih =>
    have hdiv : (value.tdiv 10).natAbs < 10 ^ digits ↔ value.natAbs < 10 ^ (digits + 1) := by
      rw [Int.natAbs_tdiv, pow_succ]
      exact Nat.div_lt_iff_lt_mul (by norm_num)
    rw [← hdiv, ← ih, makeInt]
    cases makeInt (value.tdiv 10) digits <;> rfl

/-- **What is written**, if the number is not negative. -/
theorem makeInt_eq_some {value digits : ℕ} {output : List Char} (h : makeInt value digits = some output) :
    output = (Numeral.write 10 digits value).map fun d : ℕ => digitChar d := by
  induction digits generalizing value output with
  | zero =>
    obtain ⟨_, -, h⟩ := Option.bind_eq_some_iff.mp h
    exact (Option.some.inj h).symm
  | succ digits ih =>
    obtain ⟨front, hfront, h⟩ := Option.bind_eq_some_iff.mp h
    have hdiv : (value : ℤ).tdiv 10 = (value / 10 : ℕ) := by
      rw [Int.tdiv_eq_ediv_of_nonneg (Int.natCast_nonneg _)]
      rfl
    have hmod : (value : ℤ).tmod 10 = (value % 10 : ℕ) := by
      rw [Int.tmod_eq_emod_of_nonneg (Int.natCast_nonneg _)]
      rfl
    rw [hdiv] at hfront
    rw [hmod] at h
    rw [← Option.some.inj h, ih hfront, Numeral.write, List.map_append]
    rfl

/-! ### The time -/

namespace Tm

/-- The numbers that are written, and how many digits each of them has. -/
def columns (tm : Tm) : List (ℤ × ℕ) :=
  [(tm.tmYear + 1900, 4), (tm.tmMon + 1, 2), (tm.tmMday, 2), (tm.tmHour, 2), (tm.tmMin, 2), (tm.tmSec, 2)]

/-- What a time is compared by. -/
def key (tm : Tm) : List ℤ := tm.columns.map Prod.fst

/-- **Each number has room.** -/
abbrev Fits (tm : Tm) : Prop := ∀ e ∈ tm.columns, e.1.natAbs < 10 ^ e.2

/-- No number is negative. -/
abbrev NonNegative (tm : Tm) : Prop := ∀ e ∈ tm.columns, 0 ≤ e.1

/-- The ranges of `localtime_r`, up to the last year of four digits. -/
structure Proper (tm : Tm) : Prop where
  year : 0 ≤ tm.tmYear + 1900 ∧ tm.tmYear + 1900 ≤ 9999
  mon : 0 ≤ tm.tmMon ∧ tm.tmMon ≤ 11
  mday : 1 ≤ tm.tmMday ∧ tm.tmMday ≤ 31
  hour : 0 ≤ tm.tmHour ∧ tm.tmHour ≤ 23
  min : 0 ≤ tm.tmMin ∧ tm.tmMin ≤ 59
  sec : 0 ≤ tm.tmSec ∧ tm.tmSec ≤ 60

/-- The widths of a timestamp. -/
def widths : List ℕ := [4, 2, 2, 2, 2, 2]

theorem map_snd_columns (tm : Tm) : tm.columns.map Prod.snd = widths := rfl

theorem key_inj {tm tm' : Tm} : tm.key = tm'.key ↔ tm = tm' := by
  obtain ⟨year, mon, mday, hour, min, sec⟩ := tm
  obtain ⟨year', mon', mday', hour', min', sec'⟩ := tm'
  simp [key, columns]

end Tm

/-- What a timestamp says. -/
def readTimestamp (now : List Char) : List ℤ := (Numeral.fields 10 Tm.widths (now.map digitValue)).map Nat.cast

variable {tm tm' : Tm} {now now' : List Char}

theorem length_makeInt {value : ℤ} {digits : ℕ} {output : List Char} (h : makeInt value digits = some output) :
    output.length = digits := by
  induction digits generalizing value output with
  | zero =>
    obtain ⟨_, -, h⟩ := Option.bind_eq_some_iff.mp h
    rw [← Option.some.inj h]
    rfl
  | succ digits ih =>
    obtain ⟨front, hfront, h⟩ := Option.bind_eq_some_iff.mp h
    rw [← Option.some.inj h, List.length_append, ih hfront]
    rfl

/-- What fits in so few digits fits an `int`. -/
theorem int32_of_makeInt {value : ℤ} {digits : ℕ} {output : List Char} (hdigits : digits ≤ 9)
    (h : makeInt value digits = some output) : Overflow.checked.int32 value = some value := by
  have hsome : value.natAbs < 10 ^ digits := makeInt_isSome_iff.mp (by rw [h]; rfl)
  have hpow : 10 ^ digits ≤ 10 ^ 9 := Nat.pow_le_pow_right (by norm_num) hdigits
  norm_num at hpow
  exact Overflow.int32_of_fits _ (by omega) (by omega)

/-- **The numbers are written one after the other.** -/
theorem getDateTimestamp_iff : getDateTimestamp tm = some now ↔
    ∃ outputs, List.Forall₂ (fun e output => makeInt e.1 e.2 = some output) tm.columns outputs ∧
      now = outputs.flatten := by
  constructor
  · intro h
    obtain ⟨tmYear, hy, h⟩ := Option.bind_eq_some_iff.mp h
    obtain ⟨rfl, -⟩ := Overflow.checked_eq_some hy
    obtain ⟨year, hyear, h⟩ := Option.bind_eq_some_iff.mp h
    obtain ⟨tmMon, hm, h⟩ := Option.bind_eq_some_iff.mp h
    obtain ⟨rfl, -⟩ := Overflow.checked_eq_some hm
    obtain ⟨mon, hmon, h⟩ := Option.bind_eq_some_iff.mp h
    obtain ⟨mday, hmday, h⟩ := Option.bind_eq_some_iff.mp h
    obtain ⟨hour, hhour, h⟩ := Option.bind_eq_some_iff.mp h
    obtain ⟨min, hmin, h⟩ := Option.bind_eq_some_iff.mp h
    obtain ⟨sec, hsec, h⟩ := Option.bind_eq_some_iff.mp h
    obtain ⟨_, -, h⟩ := Option.bind_eq_some_iff.mp h
    refine ⟨[year, mon, mday, hour, min, sec], ?_, ?_⟩
    · exact .cons hyear (.cons hmon (.cons hmday (.cons hhour (.cons hmin (.cons hsec .nil)))))
    · rw [← Option.some.inj h]
      simp
  · rintro ⟨outputs, houtputs, rfl⟩
    obtain ⟨year, _, hyear, h₁, rfl⟩ := List.forall₂_cons_left_iff.mp houtputs
    obtain ⟨mon, _, hmon, h₂, rfl⟩ := List.forall₂_cons_left_iff.mp h₁
    obtain ⟨mday, _, hmday, h₃, rfl⟩ := List.forall₂_cons_left_iff.mp h₂
    obtain ⟨hour, _, hhour, h₄, rfl⟩ := List.forall₂_cons_left_iff.mp h₃
    obtain ⟨min, _, hmin, h₅, rfl⟩ := List.forall₂_cons_left_iff.mp h₄
    obtain ⟨sec, _, hsec, h₆, rfl⟩ := List.forall₂_cons_left_iff.mp h₅
    obtain rfl := List.forall₂_nil_left_iff.mp h₆
    have hlength : (year ++ mon ++ mday ++ hour ++ min ++ sec).length = datetimeSize := by
      simp only [List.length_append, length_makeInt hyear, length_makeInt hmon, length_makeInt hmday,
        length_makeInt hhour, length_makeInt hmin, length_makeInt hsec, datetimeSize]
    rw [getDateTimestamp, int32_of_makeInt (by norm_num) hyear, int32_of_makeInt (by norm_num) hmon]
    simp only [Option.bind_eq_bind, Option.bind_some, hyear, hmon, hmday, hhour, hmin, hsec, guard,
      Option.pure_def, List.flatten_cons, List.flatten_nil, List.append_nil, List.append_assoc] at hlength ⊢
    rw [if_pos hlength]
    rfl

/-- **When a timestamp is written.** -/
theorem getDateTimestamp_isSome_iff : (getDateTimestamp tm).isSome ↔ tm.Fits := by
  rw [Option.isSome_iff_exists]
  constructor
  · rintro ⟨now, h⟩ e he
    obtain ⟨outputs, houtputs, -⟩ := getDateTimestamp_iff.mp h
    obtain ⟨output, -, h⟩ := Prog.exists_of_forall₂_right houtputs.flip he
    exact makeInt_isSome_iff.mp (by rw [h]; rfl)
  · intro h
    obtain ⟨outputs, houtputs⟩ := Prog.exists_forall₂ (R := fun (e : ℤ × ℕ) output => makeInt e.1 e.2 = some output)
      fun e he => Option.isSome_iff_exists.mp (makeInt_isSome_iff.mpr (h e he))
    exact ⟨_, getDateTimestamp_iff.mpr ⟨outputs, houtputs, rfl⟩⟩

/-- What is not negative is written as a record. -/
theorem flatten_outputs {columns : List (ℤ × ℕ)} {outputs : List (List Char)} (hnonneg : ∀ e ∈ columns, 0 ≤ e.1)
    (h : List.Forall₂ (fun e output => makeInt e.1 e.2 = some output) columns outputs) :
    outputs.flatten = (Numeral.record 10 (columns.map Prod.snd) (columns.map fun e => e.1.toNat)).map
      fun d : ℕ => digitChar d := by
  induction h with
  | nil => rfl
  | @cons e output columns outputs he _ ih =>
    obtain ⟨h₀, hnonneg⟩ := List.forall_mem_cons.mp hnonneg
    have ih := ih hnonneg
    rw [← Int.toNat_of_nonneg h₀] at he
    rw [Numeral.record] at ih
    rw [List.flatten_cons, makeInt_eq_some he, ih, Numeral.record, List.map_cons, List.map_cons, List.zipWith_cons_cons,
      List.flatten_cons, List.map_append]

/-- Timestamps are records of six fields. -/
theorem timestamp_record (hnonneg : tm.NonNegative) (h : getDateTimestamp tm = some now) :
    Numeral.Fit 10 Tm.widths (tm.columns.map fun e => e.1.toNat) ∧
      now = (Numeral.record 10 Tm.widths (tm.columns.map fun e => e.1.toNat)).map fun d : ℕ => digitChar d := by
  have hfits : tm.Fits := getDateTimestamp_isSome_iff.mp (by rw [h]; rfl)
  obtain ⟨outputs, houtputs, rfl⟩ := getDateTimestamp_iff.mp h
  refine ⟨?_, flatten_outputs hnonneg houtputs⟩
  rw [← tm.map_snd_columns, Numeral.Fit, List.forall₂_map_left_iff, List.forall₂_map_right_iff, List.forall₂_same]
  intro e he
  have hnonneg := hnonneg e he
  have heq : e.1.toNat = e.1.natAbs := by omega
  rw [heq]
  exact hfits e he

/-- What is not negative is given back by its natural number. -/
theorem Tm.map_toNat (hnonneg : tm.NonNegative) : (tm.columns.map fun e => e.1.toNat).map Nat.cast = tm.key := by
  rw [key, List.map_map]
  refine List.map_congr_left fun e he => ?_
  exact Int.toNat_of_nonneg (hnonneg e he)

/-- Times that are not negative compare by their natural numbers. -/
theorem Tm.toNat_lt_iff (hnonneg : tm.NonNegative) (hnonneg' : tm'.NonNegative) :
    (tm.columns.map fun e => e.1.toNat) < (tm'.columns.map fun e => e.1.toNat) ↔ tm.key < tm'.key := by
  rw [← Tm.map_toNat hnonneg, ← Tm.map_toNat hnonneg']
  exact (Numeral.map_lt_map_iff (fun _ _ _ _ => Nat.cast_lt) fun _ _ _ _ => Nat.cast_inj.mp).symm

theorem record_digits {ws vs : List ℕ} : ∀ d ∈ Numeral.record 10 ws vs, d < 10 := by
  intro d hd
  exact Numeral.record_lt (by norm_num) hd

theorem readTimestamp_record (hnonneg : tm.NonNegative)
    (hfit : Numeral.Fit 10 Tm.widths (tm.columns.map fun e => e.1.toNat)) :
    readTimestamp ((Numeral.record 10 Tm.widths (tm.columns.map fun e => e.1.toNat)).map fun d : ℕ => digitChar d) =
      tm.key := by
  rw [readTimestamp, map_digitValue record_digits, Numeral.fields_record hfit, Tm.map_toNat hnonneg]

/-- **Timestamps are in order.** One is written exactly if each number has room in its columns. Where no number is
negative, a timestamp has its fourteen characters, says what it was made of, and two of them compare as the times
that they were made of. -/
theorem timestamps_in_order (tm tm' : Tm) :
    ((getDateTimestamp tm).isSome ↔ tm.Fits) ∧
      ∀ now now', tm.NonNegative → tm'.NonNegative → getDateTimestamp tm = some now →
        getDateTimestamp tm' = some now' →
        now.length = datetimeSize ∧ readTimestamp now = tm.key ∧ (now < now' ↔ tm.key < tm'.key) ∧
          (now = now' ↔ tm = tm') := by
  refine ⟨getDateTimestamp_isSome_iff, ?_⟩
  intro now now' hnonneg hnonneg' h h'
  obtain ⟨hfit, rfl⟩ := timestamp_record hnonneg h
  obtain ⟨hfit', rfl⟩ := timestamp_record hnonneg' h'
  refine ⟨?_, readTimestamp_record hnonneg hfit, ?_, fun heq => ?_, fun heq => by rw [heq]⟩
  · rw [List.length_map, Numeral.length_record (by rw [List.length_map]; rfl)]
    rfl
  · rw [map_digitChar_lt_iff record_digits record_digits, Numeral.record_lt_record_iff (by norm_num) hfit hfit',
      Tm.toNat_lt_iff hnonneg hnonneg']
  · rw [← Tm.key_inj, ← readTimestamp_record hnonneg hfit, heq, readTimestamp_record hnonneg' hfit']

/-- The last second of a year, and the first of the next one. -/
theorem timestamps_in_order_newYear :
    ∃ now now', getDateTimestamp ⟨99, 11, 31, 23, 59, 60⟩ = some now ∧
      getDateTimestamp ⟨100, 0, 1, 0, 0, 0⟩ = some now' ∧ now < now' := by
  obtain ⟨hwritten, hread⟩ := timestamps_in_order ⟨99, 11, 31, 23, 59, 60⟩ ⟨100, 0, 1, 0, 0, 0⟩
  obtain ⟨now, hnow⟩ := Option.isSome_iff_exists.mp (hwritten.mpr (by decide))
  obtain ⟨now', hnow'⟩ := Option.isSome_iff_exists.mp
    ((timestamps_in_order ⟨100, 0, 1, 0, 0, 0⟩ ⟨0, 0, 0, 0, 0, 0⟩).1.mpr (by decide))
  obtain ⟨-, -, hlt, -⟩ := hread now now' (by decide) (by decide) hnow hnow'
  exact ⟨now, now', hnow, hnow', hlt.mpr (by decide)⟩

namespace Tm.Proper

theorem nonNegative (h : tm.Proper) : tm.NonNegative := by
  obtain ⟨hyear, hmon, hmday, hhour, hmin, hsec⟩ := h
  intro e he
  simp only [Tm.columns, List.mem_cons, List.not_mem_nil, or_false] at he
  rcases he with rfl | rfl | rfl | rfl | rfl | rfl <;> dsimp only <;> omega

theorem fits (h : tm.Proper) : tm.Fits := by
  obtain ⟨hyear, hmon, hmday, hhour, hmin, hsec⟩ := h
  intro e he
  simp only [Tm.columns, List.mem_cons, List.not_mem_nil, or_false] at he
  rcases he with rfl | rfl | rfl | rfl | rfl | rfl <;> norm_num <;> omega

end Tm.Proper

end TpccBench
