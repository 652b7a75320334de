import TpccBench.Program.Clock
import Mathlib.Data.List.TakeWhile

/-!
# The argument of the program

The number of warehouses is read with `strtol`, which skips blanks, reads a sign and the digits that follow, and
stops at anything else; a number that is too large is given as the largest `long`. `main` does not look at where
`strtol` has stopped, so `"10x"` is ten warehouses, and a text with no number is none of them. Which arguments are
accepted is said by `TpccBench.arguments_accepted`.
-/

namespace TpccBench

def longMin : ℤ := -2 ^ 63
def longMax : ℤ := 2 ^ 63 - 1

/-- `isspace`: the space, and the characters from the tabulator to the carriage return. -/
def isSpace (c : Char) : Bool := c = ' ' || (9 ≤ c.toNat && c.toNat ≤ 13)

/-- `isdigit`. -/
def isDigit (c : Char) : Bool := '0'.toNat ≤ c.toNat && c.toNat ≤ '9'.toNat

/-- What digits stand for. -/
def decimalValue (digits : List Char) : ℕ := Numeral.read 10 (digits.map digitValue)

/-- `strtol` with base ten. -/
def strtol (nptr : List Char) : ℤ :=
  let s := nptr.dropWhile isSpace
  let unsigned := if s.head? = some '-' ∨ s.head? = some '+' then s.tail else s
  let value := decimalValue (unsigned.takeWhile isDigit)
  if s.head? = some '-' then max longMin (-value) else min longMax value

/-- The number of warehouses, as `main` reads it, or what it prints before it exits. -/
def parseArguments : List String → Except String ℤ
  | [_, arg] =>
    let numWarehouses := strtol arg.toList
    if numWarehouses = longMin ∨ numWarehouses = longMax then .error s!"Bad warehouse number ({arg})\n"
    else if numWarehouses ≤ 0 then .error s!"Number of warehouses must be > 0 (was {numWarehouses})\n"
    else if numWarehouses > Warehouse.maxWarehouseId then
      .error s!"Number of warehouses must be <= {Warehouse.maxWarehouseId} (was {numWarehouses})\n"
    else .ok numWarehouses
  | _ => .error "tpcc [num warehouses]\n"

/-! ### What is read -/

/-- **A text that begins with a number**: blanks, a plus sign or none, digits, and what does not begin with a
digit. -/
def BeginsWith (text : List Char) (value : ℤ) : Prop :=
  ∃ spaces sign digits rest, text = spaces ++ (sign ++ (digits ++ rest)) ∧ (∀ c ∈ spaces, isSpace c) ∧
    (sign = [] ∨ sign = ['+']) ∧ digits ≠ [] ∧ (∀ c ∈ digits, isDigit c) ∧ (∀ c ∈ rest.head?, ¬isDigit c) ∧
    decimalValue digits = value

/-- A digit is no blank and no sign. -/
theorem isDigit_cases {c : Char} (h : isDigit c) : ¬isSpace c ∧ c ≠ '+' ∧ c ≠ '-' := by
  refine ⟨?_, ?_, ?_⟩
  · intro hspace
    have hlow : '0'.toNat ≤ c.toNat := by
      simp only [isDigit, Bool.and_eq_true, decide_eq_true_eq] at h
      exact h.1
    simp only [isSpace, Bool.or_eq_true, Bool.and_eq_true, decide_eq_true_eq] at hspace
    have hzero : '0'.toNat = 48 := rfl
    rcases hspace with rfl | ⟨-, hle⟩
    · exact absurd hlow (by decide)
    · omega
  · rintro rfl
    exact absurd h (by decide)
  · rintro rfl
    exact absurd h (by decide)

/-- What is dropped ends at the first that does not belong to it. -/
theorem dropWhile_append_of_head {p : Char → Bool} {l rest : List Char} (hl : ∀ c ∈ l, p c)
    (hrest : ∀ c ∈ rest.head?, ¬p c) : (l ++ rest).dropWhile p = rest ∧ (l ++ rest).takeWhile p = l := by
  rw [List.dropWhile_append_of_pos hl, List.takeWhile_append_of_pos hl]
  cases rest with
  | nil => simp
  | cons c rest =>
    have hc := hrest c rfl
    simp [hc]

theorem not_of_head_dropWhile {p : Char → Bool} {l : List Char} : ∀ c ∈ (l.dropWhile p).head?, ¬p c := by
  intro c hc
  have hnot := List.head?_dropWhile_not p l
  rw [Option.mem_def] at hc
  rw [hc] at hnot
  simpa using hnot

theorem longMin_lt : longMin < 0 := by norm_num [longMin]

theorem maxWarehouseId_lt : Warehouse.maxWarehouseId < longMax := by norm_num [Warehouse.maxWarehouseId, longMax]

/-- **What `strtol` reads**, as far as it is positive and not too large. -/
theorem strtol_eq_iff {nptr : List Char} {w : ℤ} (hpos : 0 < w) (hmax : w < longMax) :
    strtol nptr = w ↔ BeginsWith nptr w := by
  have hmin := longMin_lt
  constructor
  · intro h
    rw [strtol] at h
    have hskip : nptr = nptr.takeWhile isSpace ++ nptr.dropWhile isSpace := List.takeWhile_append_dropWhile.symm
    generalize hs : nptr.dropWhile isSpace = s at h hskip
    by_cases hminus : s.head? = some '-'
    · rw [if_pos hminus] at h
      omega
    · rw [if_neg hminus] at h
      -- a plus sign, or none
      obtain ⟨sign, unsigned, hsplit, hsign, hunsigned⟩ : ∃ sign unsigned, s = sign ++ unsigned ∧
          (sign = [] ∨ sign = ['+']) ∧
          (if s.head? = some '-' ∨ s.head? = some '+' then s.tail else s) = unsigned := by
        by_cases hplus : s.head? = some '+'
        · refine ⟨['+'], s.tail, ?_, Or.inr rfl, if_pos (Or.inr hplus)⟩
          exact (List.cons_head?_tail hplus).symm
        · exact ⟨[], s, rfl, Or.inl rfl, if_neg (by simp [hminus, hplus])⟩
      rw [hunsigned] at h
      have hvalue : (decimalValue (unsigned.takeWhile isDigit) : ℤ) = w := by omega
      refine ⟨nptr.takeWhile isSpace, sign, unsigned.takeWhile isDigit, unsigned.dropWhile isDigit, ?_,
        fun c hc => List.mem_takeWhile_imp hc, hsign, ?_, fun c hc => List.mem_takeWhile_imp hc,
        not_of_head_dropWhile, hvalue⟩
      · rw [List.takeWhile_append_dropWhile, ← hsplit, ← hskip]
      · intro hnil
        rw [hnil] at hvalue
        exact hpos.ne hvalue
  · rintro ⟨spaces, sign, digits, rest, rfl, hspaces, hsign, hdigits, hall, hrest, hvalue⟩
    obtain ⟨d, ds, rfl⟩ := List.exists_cons_of_ne_nil hdigits
    obtain ⟨hspace, hplus, hminus⟩ := isDigit_cases (hall d List.mem_cons_self)
    have htake := (dropWhile_append_of_head hall hrest).2
    rcases hsign with rfl | rfl
    · have hdrop : (spaces ++ ([] ++ (d :: ds ++ rest))).dropWhile isSpace = d :: ds ++ rest :=
        (dropWhile_append_of_head hspaces (by simpa using hspace)).1
      rw [strtol, hdrop]
      simp only [List.cons_append, List.head?_cons, Option.some.injEq, hplus, hminus, or_self, if_false]
      rw [List.cons_append] at htake
      rw [htake, hvalue]
      omega
    · have hdrop : (spaces ++ (['+'] ++ (d :: ds ++ rest))).dropWhile isSpace = '+' :: (d :: ds ++ rest) :=
        (dropWhile_append_of_head hspaces (by simp [isSpace])).1
      rw [strtol, hdrop]
      rw [List.head?_cons, List.tail_cons, if_pos (Or.inr rfl), if_neg (by decide), htake, hvalue]
      omega

/-- What passes the checks. -/
theorem parseArguments_eq_ok {argv : List String} {w : ℤ} : parseArguments argv = .ok w ↔
    ∃ program arg, argv = [program, arg] ∧ strtol arg.toList = w ∧ 1 ≤ w ∧ w ≤ Warehouse.maxWarehouseId := by
  have hmin := longMin_lt
  have hmax := maxWarehouseId_lt
  constructor
  · intro h
    rcases argv with _ | ⟨program, _ | ⟨arg, _ | _⟩⟩
    · exact absurd h (by simp [parseArguments])
    · exact absurd h (by simp [parseArguments])
    · rw [parseArguments] at h
      split_ifs at h with hbad hpos hlarge
      obtain rfl := Except.ok.inj h
      exact ⟨program, arg, rfl, rfl, by omega, by omega⟩
    · exact absurd h (by simp [parseArguments])
  · rintro ⟨program, arg, rfl, hw, hpos, hle⟩
    rw [parseArguments, hw]
    rw [if_neg (by omega), if_neg (by omega), if_neg (by omega)]

/-- **Which arguments are accepted**: exactly those that begin with a number from one to a hundred. -/
theorem arguments_accepted (argv : List String) (w : ℤ) :
    parseArguments argv = .ok w ↔
      ∃ program arg, argv = [program, arg] ∧ BeginsWith arg.toList w ∧ 1 ≤ w ∧ w ≤ Warehouse.maxWarehouseId := by
  have hmax := maxWarehouseId_lt
  rw [parseArguments_eq_ok]
  refine exists_congr fun program => exists_congr fun arg => and_congr_right fun _ => ?_
  refine and_congr_left fun hw => ?_
  exact strtol_eq_iff (by omega) (by omega)

end TpccBench
