import Mathlib.Data.Char
import Mathlib.Data.List.Lex
import Mathlib.Data.Prod.Lex
import TpccBench.Lib.SortedList
import TpccBench.Tables.Insertions

/-!
# Customers by name

`CustomerByNameOrdering` is a linear order on what it compares (`TpccBench.NameKey`), and so
`lower_bound` steps over what is smaller. Between a last name and the one
`findCustomerByName` makes up as the next there is nothing else, except for names that go on with a
character before `A` (`TpccBench.NameKey.Intrudes`).
-/

namespace TpccBench

namespace Op

/-! ### The order -/

namespace NameKey

/-- The columns, the most significant first. -/
def lex (k : NameKey) : ℤ ×ₗ ℤ ×ₗ List Char ×ₗ List Char :=
  toLex (k.cWId, toLex (k.cDId, toLex (k.cLast, k.cFirst)))

theorem lex_injective : Function.Injective lex := by
  rintro ⟨w, d, l, f⟩ ⟨w', d', l', f'⟩ h
  simpa [lex] using h

instance : LinearOrder NameKey := LinearOrder.lift' lex lex_injective

theorem lt_iff {a b : NameKey} : a < b ↔
    a.cWId < b.cWId ∨ a.cWId = b.cWId ∧ (a.cDId < b.cDId ∨ a.cDId = b.cDId ∧
      (a.cLast < b.cLast ∨ a.cLast = b.cLast ∧ a.cFirst < b.cFirst)) := by
  change lex a < lex b ↔ _
  simp only [lex, Prod.Lex.toLex_lt_toLex]

end NameKey

/-- **`CustomerByNameOrdering`** is the order. -/
theorem customerByNameOrdering_eq (a b : NameKey) : customerByNameOrdering a b = decide (a < b) := by
  rw [Bool.eq_iff_iff, decide_eq_true_iff, NameKey.lt_iff, customerByNameOrdering]
  rcases lt_trichotomy a.cWId b.cWId with h | h | h
  · simp [h]
  · rcases lt_trichotomy a.cDId b.cDId with h' | h' | h'
    · simp [h, h']
    · rcases lt_trichotomy a.cLast b.cLast with h'' | h'' | h''
      · simp [h, h', h'']
      · simp [h, h', h'']
      · simp [h, h', h'', h''.not_gt, h''.ne']
    · simp [h, h', h'.not_gt, h'.ne']
  · simp [h, h.not_gt, h.ne']

theorem lowerBound_eq_below (key : NameKey) (l : List (Ptr × NameKey)) :
    lowerBound key l = below Prod.snd key l := by
  simp only [lowerBound, below, customerByNameOrdering_eq]

/-! ### The next last name -/

/-- What comes before a name with an `A` appended, and not before the name: the name, and what
goes on with less. -/
theorem not_lt_and_lt_append_A {p s : List Char} :
    ¬s < p ∧ s < p ++ ['A'] ↔ s = p ∨ ∃ ch rest, s = p ++ ch :: rest ∧ ch < 'A' := by
  induction p generalizing s with
  | nil =>
    rcases s with _ | ⟨ch, rest⟩
    · simp
    · simp [List.cons_lt_cons_iff]
  | cons c p ih =>
    rcases s with _ | ⟨ch, rest⟩
    · simp
    · rw [List.cons_append, List.cons_lt_cons_iff, List.cons_lt_cons_iff]
      constructor
      · rintro ⟨hle, hgt | ⟨rfl, hgt⟩⟩
        · exact absurd (Or.inl hgt) hle
        · rcases ih.mp ⟨fun h => hle (Or.inr ⟨rfl, h⟩), hgt⟩ with rfl | ⟨ch', rest', rfl, hch⟩
          · exact Or.inl rfl
          · exact Or.inr ⟨ch', rest', rfl, hch⟩
      · intro h
        have hs : ch = c ∧ (rest = p ∨ ∃ ch rest', rest = p ++ ch :: rest' ∧ ch < 'A') := by
          rcases h with h | ⟨ch', rest', h, hch⟩
          · exact ⟨(List.cons.inj h).1, Or.inl (List.cons.inj h).2⟩
          · exact ⟨(List.cons.inj h).1, Or.inr ⟨ch', rest', (List.cons.inj h).2, hch⟩⟩
        obtain ⟨rfl, hs⟩ := hs
        obtain ⟨hle, hgt⟩ := ih.mpr hs
        exact ⟨by simp [hle], Or.inr ⟨rfl, hgt⟩⟩

/-- Below the last character's successor there is nothing else of that length. -/
theorem not_lt_and_lt_append_succ {q s : List Char} {x y : Char} (hxy : y.toNat = x.toNat + 1)
    (hs : s.length ≤ q.length + 1) : ¬s < q ++ [x] ∧ s < q ++ [y] ↔ s = q ++ [x] := by
  have hlt : ∀ ch : Char, ¬ch < x → ch < y → ch = x := fun ch h h' => by
    have h : ¬ch.toNat < x.toNat := h
    have h' : ch.toNat < y.toNat := h'
    exact Char.toNat_inj.mp (by omega)
  have hx : x < y := show x.toNat < y.toNat by omega
  induction q generalizing s with
  | nil =>
    rcases s with _ | ⟨ch, rest⟩
    · simp
    · obtain rfl : rest = [] := List.length_eq_zero_iff.mp (by simpa using hs)
      rw [List.nil_append, List.nil_append, List.cons_lt_cons_iff, List.cons_lt_cons_iff]
      constructor
      · rintro ⟨h, h' | ⟨-, h'⟩⟩
        · rw [hlt ch (fun h'' => h (Or.inl h'')) h']
        · exact absurd h' (lt_irrefl _)
      · intro h
        obtain rfl := (List.cons.inj h).1
        exact ⟨by simp, Or.inl hx⟩
  | cons c q ih =>
    rcases s with _ | ⟨ch, rest⟩
    · simp
    · have hrest : rest.length ≤ q.length + 1 := by simpa using hs
      rw [List.cons_append, List.cons_append, List.cons_lt_cons_iff, List.cons_lt_cons_iff]
      constructor
      · rintro ⟨h, h' | ⟨rfl, h'⟩⟩
        · exact absurd (Or.inl h') h
        · rw [(ih hrest).mp ⟨fun h'' => h (Or.inr ⟨rfl, h''⟩), h'⟩]
      · intro heq
        obtain ⟨rfl, rfl⟩ := List.cons.inj heq
        obtain ⟨hle, h'⟩ := (ih hrest).mpr rfl
        exact ⟨by simp, Or.inr ⟨rfl, h'⟩⟩

namespace NameKey

/-- What a name lookup asks for. -/
def Matches (w d : ℤ) (cLast : List Char) (k : NameKey) : Prop :=
  k.cWId = w ∧ k.cDId = d ∧ k.cLast = cLast

/-- A longer last name that comes before the one with an `A` appended. -/
def Intrudes (w d : ℤ) (cLast : List Char) (k : NameKey) : Prop :=
  k.cWId = w ∧ k.cDId = d ∧ cLast.length < 16 ∧ ∃ ch rest, k.cLast = cLast ++ ch :: rest ∧ ch < 'A'

instance (w d : ℤ) (cLast : List Char) (k : NameKey) : Decidable (k.Matches w d cLast) :=
  inferInstanceAs (Decidable (_ ∧ _))

theorem lt_cLast_iff {w d : ℤ} {cLast : List Char} {k : NameKey} :
    k < ⟨w, d, cLast, []⟩ ↔
      k.cWId < w ∨ k.cWId = w ∧ (k.cDId < d ∨ k.cDId = d ∧ k.cLast < cLast) := by
  have hnil : ¬k.cFirst < [] := by simp
  simp only [lt_iff, hnil, and_false, or_false]

/-- The last name that `findCustomerByName` takes to be the next one. -/
theorem not_lt_and_lt_nextLast {cLast s : List Char} (hlen : cLast.length ≤ 16)
    (hascii : ∀ ch ∈ cLast, ch.toNat < 128) (hs : s.length ≤ 16) :
    ¬s < cLast ∧ s < nextLast cLast ↔ s = cLast ∨
      cLast.length < 16 ∧ ∃ ch rest, s = cLast ++ ch :: rest ∧ ch < 'A' := by
  rw [nextLast]
  split
  · next hfull =>
    rcases List.eq_nil_or_concat cLast with rfl | ⟨q, x, rfl⟩
    · simp at hfull
    · have hx : x.toNat < 128 := hascii x (by simp)
      have hy : (Char.ofNat (x.toNat + 1)).toNat = x.toNat + 1 := toNat_ofNat_of_lt (by omega)
      have hq : q.length + 1 = 16 := by simpa using hfull
      rw [List.concat_eq_append, List.dropLast_concat, List.getLast?_concat]
      simp only [Option.map_some, Option.toList_some]
      rw [not_lt_and_lt_append_succ hy (by omega)]
      simp [hq]
  · next hfull =>
    rw [not_lt_and_lt_append_A]
    simp [show cLast.length < 16 by omega]

/-- **What is found** between a last name and the next one. -/
theorem between_iff {w d : ℤ} {cLast : List Char} (hlen : cLast.length ≤ 16)
    (hascii : ∀ ch ∈ cLast, ch.toNat < 128) {k : NameKey} (hk : k.cLast.length ≤ 16) :
    ¬k < ⟨w, d, cLast, []⟩ ∧ k < ⟨w, d, nextLast cLast, []⟩ ↔
      k.Matches w d cLast ∨ k.Intrudes w d cLast := by
  have hlast := not_lt_and_lt_nextLast hlen hascii hk
  rw [lt_cLast_iff, lt_cLast_iff, Matches, Intrudes]
  by_cases hw : k.cWId = w
  · by_cases hd : k.cDId = d
    · simp only [hw, hd, lt_irrefl, true_and, false_or]
      exact hlast
    · simp [hw, hd]
  · simp [hw]

end NameKey

end Op

end TpccBench
