import Mathlib.Data.List.TakeWhile

/-!
# Strings in arrays of characters

An array contains a string (`TpccBench.CharArray.Contains`) if it begins with its characters and a
zero that ends them. The functions on arrays have no result where they would read or write beyond
the end of the array.
-/

namespace TpccBench

/-- The character that ends a string. -/
def nul : Char := Char.ofNat 0

namespace CharArray

variable {a s s' : List Char}

/-- `strlen`. -/
def strlen (a : List Char) : Option ℕ :=
  let n := (a.takeWhile (· ≠ nul)).length
  if n < a.length then some n else none

/-- `memmove` within an array. -/
def memmove (a : List Char) (dst src n : ℕ) : Option (List Char) :=
  if dst + n ≤ a.length ∧ src + n ≤ a.length then
    some (a.take dst ++ (a.drop src).take n ++ a.drop (dst + n))
  else none

/-- `memcpy` of characters from elsewhere. -/
def memcpy (a : List Char) (dst : ℕ) (s : List Char) : Option (List Char) :=
  if dst + s.length ≤ a.length then some (a.take dst ++ s ++ a.drop (dst + s.length)) else none

/-- The assignment of a character. -/
def store (a : List Char) (i : ℕ) (c : Char) : Option (List Char) :=
  if i < a.length then some (a.set i c) else none

/-- **The array contains the string.** -/
structure Contains (a s : List Char) : Prop where
  nul_notMem : nul ∉ s
  eq_append : ∃ rest, a = s ++ nul :: rest

namespace Contains

theorem length_lt (h : Contains a s) : s.length < a.length := by
  obtain ⟨rest, rfl⟩ := h.eq_append
  rw [List.length_append, List.length_cons]
  omega

theorem takeWhile_eq (h : Contains a s) : a.takeWhile (· ≠ nul) = s := by
  obtain ⟨rest, rfl⟩ := h.eq_append
  rw [List.takeWhile_append_of_pos, List.takeWhile_cons_of_neg (by simp), List.append_nil]
  intro c hc
  exact decide_eq_true fun heq => h.nul_notMem (heq ▸ hc)

theorem strlen_eq (h : Contains a s) : strlen a = some s.length := by
  rw [strlen, h.takeWhile_eq]
  exact if_pos h.length_lt

theorem take_eq (h : Contains a s) {n : ℕ} (hn : n ≤ s.length) : a.take n = s.take n := by
  obtain ⟨rest, rfl⟩ := h.eq_append
  rw [List.take_append_of_le_length hn]

end Contains

end CharArray

end TpccBench
