import TpccBench.Load.Ends

/-!
# A load that ends

Customers after the first thousand draw their last names, so that what keeps their names apart
may be their first names only. There is a source whose first names are all different: six letters
in a row tell where they have been drawn (`TpccBench.letter_window`). With it, a load of any size
that the constructor accepts comes to its end (`TpccBench.TPCCGenerator.exists_loads`).
-/

namespace TpccBench

open Prog

variable {F : Type}

/-! ### Letters that tell their place -/

/-- The letter at a place. Blocks of six letters are numbered in base 13, with the lowest digit
first, and the first letter of a block is marked. -/
def letter (n : ℕ) : ℕ := (if n % 6 = 0 then 13 else 0) + n / 6 / 13 ^ (n % 6) % 13

theorem letter_le (n : ℕ) : letter n ≤ 25 := by
  have := Nat.mod_lt (n / 6 / 13 ^ (n % 6)) (show 0 < 13 by decide)
  rw [letter]
  split <;> omega

theorem mod_pow_of_digits {x y k : ℕ} (h : ∀ i < k, x / 13 ^ i % 13 = y / 13 ^ i % 13) :
    x % 13 ^ k = y % 13 ^ k := by
  induction k with
  | zero => rw [pow_zero, Nat.mod_one, Nat.mod_one]
  | succ k ih =>
    rw [Nat.mod_pow_succ, Nat.mod_pow_succ, ih fun i hi => h i (Nat.lt_succ_of_lt hi), h k (Nat.lt_succ_self k)]

theorem digit_of_mod_pow {x y k i : ℕ} (hi : i < k) (h : x % 13 ^ k = y % 13 ^ k) :
    x / 13 ^ i % 13 = y / 13 ^ i % 13 := by
  have hdvd : 13 ^ i * 13 ∣ 13 ^ k := pow_succ 13 i ▸ Nat.pow_dvd_pow 13 hi
  rw [← Nat.mod_mul_right_div_self, ← Nat.mod_mul_right_div_self, ← Nat.mod_mod_of_dvd x hdvd, h,
    Nat.mod_mod_of_dvd y hdvd]

/-- **Six letters in a row** tell their place, up to a period of some millions. -/
theorem letter_window {n m : ℕ} (h : ∀ j < 6, letter (n + j) = letter (m + j)) :
    n % (6 * 13 ^ 6) = m % (6 * 13 ^ 6) := by
  have hmarked : ∀ k, 13 ≤ letter k ↔ k % 6 = 0 := fun k => by
    have := Nat.mod_lt (k / 6 / 13 ^ (k % 6)) (show 0 < 13 by decide)
    rw [letter]
    split <;> omega
  -- the marks tell the place in the block
  have hr : n % 6 = m % 6 := by
    have hj : (6 - n % 6) % 6 < 6 := Nat.mod_lt _ (by decide)
    have hn := (hmarked (n + (6 - n % 6) % 6)).mpr (by omega)
    rw [h _ hj, hmarked] at hn
    omega
  have hdigit : ∀ i j, j < 6 → (n + j) % 6 = i → (n + j) / 6 / 13 ^ i % 13 = (m + j) / 6 / 13 ^ i % 13 := by
    rintro i j hj rfl
    have hmod : (m + j) % 6 = (n + j) % 6 := by omega
    have hletter := h j hj
    rw [letter, letter, hmod] at hletter
    omega
  -- the lower digits are those of the next block
  have hlow : (n / 6 + 1) % 13 ^ (n % 6) = (m / 6 + 1) % 13 ^ (n % 6) := mod_pow_of_digits fun i hi => by
    have hd := hdigit i (6 + i - n % 6) (by omega) (by omega)
    have hn : (n + (6 + i - n % 6)) / 6 = n / 6 + 1 := by omega
    have hm : (m + (6 + i - n % 6)) / 6 = m / 6 + 1 := by omega
    rwa [hn, hm] at hd
  have hlow : n / 6 % 13 ^ (n % 6) = m / 6 % 13 ^ (n % 6) := Nat.ModEq.add_right_cancel' 1 hlow
  have hblock : n / 6 % 13 ^ 6 = m / 6 % 13 ^ 6 := mod_pow_of_digits fun i hi => by
    by_cases hlt : i < n % 6
    · exact digit_of_mod_pow hlt hlow
    · have hd := hdigit i (i - n % 6) (by omega) (by omega)
      have hn : (n + (i - n % 6)) / 6 = n / 6 := by omega
      have hm : (m + (i - n % 6)) / 6 = m / 6 := by omega
      rwa [hn, hm] at hd
  rw [Nat.mod_mul, Nat.mod_mul, hr, hblock]

namespace RandomGenerator

/-- A source that goes round, except that letters tell their place. -/
def lettered (top : ℤ) : RandomGenerator where
  number n lower upper := if lower = 0 ∧ upper = 25 then letter n else (cycle top).number n lower upper
  cValues := ⟨0, 0, 0⟩
  lower_le n lower upper h := by
    split
    · next heq => exact heq.1 ▸ Int.natCast_nonneg _
    · exact (cycle top).lower_le n h
  le_upper n lower upper h := by
    split
    · next heq => exact heq.2 ▸ Int.ofNat_le.mpr (letter_le n)
    · exact (cycle top).le_upper n h

theorem lettered_covers {top upper : ℤ} {tries : ℕ} (h : (cycle top).Covers tries 1 upper) :
    (lettered top).Covers tries 1 upper := h

/-- **A name tells** where it has been drawn. -/
theorem spells_lettered {top : ℤ} {n m : ℕ} {s : List Char} (hn : (lettered top).Spells n s)
    (hm : (lettered top).Spells m s) : n % (6 * 13 ^ 6) = m % (6 * 13 ^ 6) := by
  refine letter_window fun j hj => ?_
  have hspell : ∀ k, ((lettered top).number k 0 25).toNat = letter k := fun k => rfl
  have heq := Option.some.inj ((hn j hj).symm.trans (hm j hj))
  rw [hspell, hspell] at heq
  have hchar : ∀ k, (Char.ofNat ('a'.toNat + letter k)).toNat = 97 + letter k := fun k => by
    have hle := letter_le k
    exact toNat_ofNat_of_lt (show 97 + letter k < 0xd800 by omega)
  have hnat := congrArg Char.toNat heq
  rw [hchar, hchar] at hnat
  omega

end RandomGenerator

namespace TPCCGenerator

variable {g : TPCCGenerator} {warehouses : ℕ} {x : LoadData F} {t : ℤ}

variable [Money F]

/-- **Names that tell** where they have been drawn are different. -/
theorem Makes.distinctNames_of_spells (hx : g.Makes warehouses x) (htells : ∀ {n m : ℕ} {s : List Char},
    g.random.Spells n s → g.random.Spells m s → n % (6 * 13 ^ 6) = m % (6 * 13 ^ 6)) :
    g.DistinctNames warehouses x := by
  intro w hw d hd c hc c' hc' heq
  obtain ⟨n, start, hstart, hnd⟩ := ((hx.at hw).at hd).first
  obtain ⟨hin, hspells⟩ := hstart c hc
  obtain ⟨hin', hspells'⟩ := hstart c' hc'
  have hfirst : (((x.warehouse w).district d).customer c).cFirst =
      (((x.warehouse w).district d).customer c').cFirst := CString.ext (congrArg Op.NameKey.cFirst heq)
  rw [← hfirst] at hspells'
  have hmod := htells hspells hspells'
  have hcustomers := g.customers_range.2
  -- the customers of a district are drawn within a period
  have hsame : start c = start c' := by
    have hle : 628 * g.customersPerDistrict ≤ 1884000 := by omega
    omega
  exact List.inj_on_of_nodup_map hnd hc hc' hsame

theorem Makes.distinctNames_lettered (hx : ({ g with random := .lettered t }).Makes warehouses x) :
    DistinctNames { g with random := .lettered t } warehouses x :=
  hx.distinctNames_of_spells RandomGenerator.spells_lettered

/-- **A load comes to its end**, whatever the configuration is. -/
theorem exists_loads (hw : warehouses ≤ 100) (hi : g.numItems ≠ t) (hc : g.customersPerDistrict ≠ t) :
    ∃ loaded : Tables F, ({ g with random := .lettered t }).Loads warehouses loaded := by
  have hfair : ({ g with random := .lettered t } : TPCCGenerator).Fair (g.numItems + g.customersPerDistrict) :=
    { cLast := ⟨le_rfl, RandomGenerator.sumsFit_of_le (c := 0) (e := 10) _ rfl (by decide) (by omega) (by decide)⟩
      items := RandomGenerator.lettered_covers (RandomGenerator.cycle_covers hi (by push_cast; omega))
      customers := RandomGenerator.lettered_covers (RandomGenerator.cycle_covers hc (by push_cast; omega)) }
  obtain ⟨l, hl⟩ := load_isSome (F := F) hfair hw (fun x hx => hx.distinctNames_lettered) 0
  exact ⟨l.tables, _, 0, l, hl, rfl⟩

end TPCCGenerator

end TpccBench
