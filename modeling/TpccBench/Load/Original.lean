import TpccBench.Load.Generator
import Mathlib.Data.List.Infix

/-!
# Data that is marked

Some of the rows are marked: `ORIGINAL` is copied into their data, at a position that is drawn. It fits in
wherever that is, and what is not marked does not have it by chance, because the letters that are drawn are
lower case.
-/

namespace TpccBench

open Prog RandomGenerator

/-- The mark, as `strstr` finds it. -/
theorem isOriginal_iff (s : List Char) : isOriginal s = true ↔ "ORIGINAL".toList <:+: s := by
  rw [isOriginal, List.any_eq_true, List.infix_iff_prefix_suffix]
  simp only [List.mem_tails, List.isPrefixOf_iff_prefix]
  exact exists_congr fun _ => and_comm

/-- **Lower case is not marked.** -/
theorem RandomGenerator.Lower.not_original {s : List Char} (h : Lower s) : ¬"ORIGINAL".toList <:+: s := by
  intro hin
  have hO : 'O' ∈ s := hin.subset (by decide)
  exact absurd (h 'O' hO) (by decide)

/-- The data of a row: a string that fits, marked or not. -/
structure DataString (original : Prop) (s : List Char) : Prop where
  length : 26 ≤ s.length ∧ s.length ≤ 50
  terminated : Char.ofNat 0 ∉ s
  original : "ORIGINAL".toList <:+: s ↔ original

theorem RandomGenerator.Lower.terminated {s : List Char} (h : Lower s) : Char.ofNat 0 ∉ s := fun h₀ =>
  absurd (h _ h₀) (by decide)

variable {random : RandomGenerator} {fair : Prop} {n : ℕ}

/-- **What is copied over**: eight characters of the string, wherever that is. -/
theorem setOriginal_yields {s : CString n} (h : 8 ≤ s.chars.length) :
    (setOriginal random s).Yields fair fun s' => s'.chars.length = s.chars.length ∧
      ∃ k, s'.chars = s.chars.take k ++ "ORIGINAL".toList ++ s.chars.drop (k + 8) := by
  rw [setOriginal]
  refine (random.draw_yields (by omega)).bind fun position hposition => ?_
  have h8 : "ORIGINAL".toList.length = 8 := by decide
  have hlen : (s.chars.take position.toNat ++ "ORIGINAL".toList ++ s.chars.drop (position.toNat + 8)).length =
      s.chars.length := by
    simp only [List.length_append, List.length_take, List.length_drop]
    omega
  refine (Rx.Yields.lift fun _ => CString.strcpy_isSome (by rw [hlen]; exact s.length_le)).mono fun s' hs' => ?_
  rw [CString.strcpy_eq_some hs']
  exact ⟨hlen, _, rfl⟩

/-- **Marked data** is data. -/
theorem DataString.set {s s' : List Char} (h : DataString False s) (hlen : s'.length = s.length) {k : ℕ}
    (hs : s' = s.take k ++ "ORIGINAL".toList ++ s.drop (k + 8)) : DataString True s' where
  length := hlen ▸ h.length
  terminated := by
    rw [hs, List.mem_append, List.mem_append]
    rintro ((h₀ | h₀) | h₀)
    · exact h.terminated (List.mem_of_mem_take h₀)
    · exact absurd h₀ (by decide)
    · exact h.terminated (List.mem_of_mem_drop h₀)
  original := ⟨fun _ => trivial, fun _ => ⟨_, _, hs.symm⟩⟩

/-- What is drawn is not marked. -/
theorem astring_data : (random.astring 50 26 50).Yields fair fun data => DataString False data.chars :=
  ((random.astring_yields (by decide) (by decide) le_rfl).and fun _ _ _ hs => random.astring_lower hs).mono
    fun _ ⟨hlen, hlower⟩ => ⟨by omega, hlower.terminated, ⟨hlower.not_original, False.elim⟩⟩

/-- **What is made of it** is marked if it is to be. -/
theorem original_yields {s : CString n} (original : Bool) (h : DataString False s.chars) :
    Rx.Yields fair (if original then setOriginal random s else pure s) fun s' =>
      DataString (original = true) s'.chars := by
  refine Rx.Yields.ite (fun ho => ?_) fun ho => Rx.Yields.pure ?_
  · have h8 : 8 ≤ s.chars.length := by
      have := h.length
      omega
    refine (setOriginal_yields h8).mono fun s' ⟨hlen, k, hk⟩ => ?_
    rw [ho]
    simpa using h.set hlen hk
  · rw [Bool.not_eq_true] at ho
    rw [ho]
    simpa using h

end TpccBench
