import TpccBench.Db.Refusal
import TpccBench.Lib.Scan
import TpccBench.Tables.Queries

/-!
# The stock level

`stockLevel` looks up the lines of the last twenty orders of a district until one is missing, and
counts the distinct items among them that are low.

Where the lines of each order are numbered from one on, that is the number of items on a line of
these orders whose stock is below the threshold – as long as the key of the last line it looks up
fits its 32 bits (`TpccBench.Tables.stockLevel_counts_iff`). The check in debug mode that a missing line is
the end of its order looks up one line only, the next one, again and again: it passes if a line
further on is there (`TpccBench.Tables.debugCheck_exact_iff`).
-/

namespace TpccBench

open Prog

variable {F : Type}

/-! ### The lines of an order -/

namespace Db

variable (db : Db F) (w d o : ℤ)

/-- The order has a line with this number. -/
def HasLine (n : ℕ) : Prop := (db.row .orderLine (w, d, o, (n : ℤ))).isSome

instance (n : ℕ) : Decidable (db.HasLine w d o n) := inferInstanceAs (Decidable (_ = true))

/-- The first line number that is missing. -/
structure FirstMissing (n : ℕ) : Prop where
  pos : 1 ≤ n
  before (m : ℕ) : 1 ≤ m → m < n → db.HasLine w d o m
  missing : ¬db.HasLine w d o n

/-- The line with this number can be looked up. -/
def CanFind (n : ℕ) : Prop := (primary .orderLine (w, d, o, (n : ℤ))).isSome

instance (n : ℕ) : Decidable (CanFind w d o n) := inferInstanceAs (Decidable (_ = true))

/-- What `stockLevel` wants of an order whose first missing line is the one with number `n`: the line can
be looked up, and the next one can be, and is missing too. -/
def Checked (n : ℕ) : Prop :=
  (n ≤ 15 → CanFind w d o n) ∧ (n < 15 → CanFind w d o (n + 1) ∧ ¬db.HasLine w d o (n + 1))

instance (n : ℕ) : Decidable (db.Checked w d o n) := inferInstanceAs (Decidable (_ ∧ _))

/-- The item of a line, if its stock is low. -/
def lowItem (threshold : ℤ) (n : ℕ) : Option ℤ := do
  let line ← db.row .orderLine (w, d, o, (n : ℤ))
  let s : Stock ← db.row .stock (w, line.olIId)
  if s.sQuantity < threshold then some line.olIId else none

/-- The lines of a district are in stock. -/
def InStock (w d : ℤ) : Prop :=
  ∀ {o n : ℤ} {line : OrderLine F}, db.row .orderLine (w, d, o, n) = some line → (db.row .stock (w, line.olIId)).isSome

variable {db w d o} {n : ℕ}

theorem Keyed.canFind (hk : db.Keyed) (h : db.HasLine w d o n) : CanFind w d o n := by
  obtain ⟨line, hline⟩ := Option.isSome_iff_exists.mp h
  exact hk.keys hline

theorem CanFind.fits (h : CanFind w d o n) :
    validWarehouse w ∧ validDistrict d ∧ validOrder o ∧ validLine n ∧ orderLineKeyFits w d o n := by
  obtain ⟨l, hl⟩ := Option.isSome_iff_exists.mp h
  obtain ⟨key, hkey, -⟩ := Option.map_eq_some_iff.mp hl
  exact (makeOrderLineKey_eq_some.mp hkey).1

theorem canFind_of_fits (hw : validWarehouse w) (hd : validDistrict d) (ho : validOrder o) (hn : validLine n)
    (hfits : orderLineKeyFits w d o n) : CanFind w d o n := by
  rw [CanFind, primary, makeOrderLineKey_of_valid _ hw hd ho hn hfits]
  rfl

theorem Keyed.le_of_hasLine (hk : db.Keyed) (h : db.HasLine w d o n) : 1 ≤ n ∧ n ≤ 15 := by
  have hn : 1 ≤ (n : ℤ) ∧ (n : ℤ) ≤ 15 := (hk.canFind h).fits.2.2.2.1
  omega

/-- **Some line is the first one missing**: no line has a number above 15. -/
theorem Keyed.exists_firstMissing (hk : db.Keyed) (w d o : ℤ) : ∃ n ≤ 16, db.FirstMissing w d o n := by
  have hex : ∃ n, 1 ≤ n ∧ ¬db.HasLine w d o n := ⟨16, by decide, fun h => absurd (hk.le_of_hasLine h).2 (by decide)⟩
  classical
  refine ⟨Nat.find hex, Nat.find_min' hex ⟨by decide, fun h => absurd (hk.le_of_hasLine h).2 (by decide)⟩,
    (Nat.find_spec hex).1, fun m hm hlt => ?_, (Nat.find_spec hex).2⟩
  by_contra hno
  exact Nat.find_min hex hlt ⟨hm, hno⟩

theorem FirstMissing.unique {n' : ℕ} (h : db.FirstMissing w d o n) (h' : db.FirstMissing w d o n') : n = n' := by
  rcases lt_trichotomy n n' with hlt | heq | hgt
  · exact absurd (h'.before n h.pos hlt) h.missing
  · exact heq
  · exact absurd (h.before n' h'.pos hgt) h'.missing

end Db

/-! ### Looking up -/

namespace Op

variable {t : Tables F} {w d o threshold : ℤ} {n : ℕ}

/-- A line that is missing is not found. -/
theorem findOrderLine_missing (ht : t.Sound) (h : ¬t.db.HasLine w d o n) :
    findOrderLine w d o n t = if Db.CanFind w d o n then some (none, t) else none := by
  have hnone : t.db.row .orderLine (w, d, o, (n : ℤ)) = none := Option.not_isSome_iff_eq_none.mp h
  rw [Shows.findOrderLine_finds w d o n t, (Tables.lookup_eq_none_iff ht.linked).mpr hnone]
  rfl

/-- The check in debug mode that a line is missing. -/
theorem assert_missing (ht : t.Sound) : (findOrderLine w d o n >>= fun p => assert (p = none)) t =
    if Db.CanFind w d o n ∧ ¬t.db.HasLine w d o n then some ((), t) else none := by
  by_cases hline : t.db.HasLine w d o n
  · obtain ⟨line, hline'⟩ := Option.isSome_iff_exists.mp hline
    obtain ⟨p, hfind, -⟩ := find_deref (Shows.findOrderLine_finds w d o n) hline'
    rw [bind_apply, hfind, Option.bind_some, if_neg fun hc => hc.2 hline]
    rfl
  · rw [bind_apply, findOrderLine_missing ht hline]
    by_cases hcan : Db.CanFind w d o n
    · rw [if_pos hcan, if_pos ⟨hcan, hline⟩]
      rfl
    · rw [if_neg hcan, if_neg fun hc => hcan hc.1]
      rfl

/-- **A line that is there.** -/
theorem stockLevelLines_found {line : OrderLine F} {s : Stock} (hline : t.db.row .orderLine (w, d, o, (n : ℤ)) = some line)
    (hs : t.db.row .stock (w, line.olIId) = some s) (ns : List ℕ) :
    stockLevelLines w d threshold o (n :: ns) t = (stockLevelLines w d threshold o ns t).map fun r =>
      (if s.sQuantity < threshold then line.olIId :: r.1 else r.1, r.2) := by
  obtain ⟨p, hfind, hread⟩ := find_deref (Shows.findOrderLine_finds w d o n) hline
  obtain ⟨q, hfind', hread'⟩ := find_deref (Shows.findStock_finds w line.olIId) hs
  rw [stockLevelLines, bind_apply, hfind, Option.bind_some]
  change (deref .orderLine (some p) >>= _) t = _
  rw [bind_apply, hread, Option.bind_some, bind_apply, hfind', Option.bind_some, bind_apply, hread', Option.bind_some,
    bind_apply]
  cases stockLevelLines w d threshold o ns t with
  | none => rfl
  | some r => rfl

/-- **The first line that is missing**: the check looks up the next one, once for each that might follow. -/
theorem stockLevelLines_missing (ht : t.Sound) (h : ¬t.db.HasLine w d o n) (hn : n ≤ 15) (ns : List ℕ) :
    stockLevelLines w d threshold o (n :: ns) t = if t.db.Checked w d o n then some ([], t) else none := by
  have hcast : ((n : ℤ) + 1) = ((n + 1 : ℕ) : ℤ) := by push_cast; ring
  have hlen : (Order.maxOlCnt - (n : ℤ)).toNat = 15 - n := by
    rw [Order.maxOlCnt]
    omega
  rw [stockLevelLines, bind_apply, findOrderLine_missing ht h]
  by_cases hcan : Db.CanFind w d o n
  · rw [if_pos hcan, Option.bind_some]
    change ((List.range (Order.maxOlCnt - (n : ℤ)).toNat).forM (fun _ => findOrderLine w d o ((n : ℤ) + 1) >>=
      fun p => assert (p = none)) >>= fun _ => pure []) t = _
    rw [hcast, bind_apply, forM_look _ fun _ _ => assert_missing ht, hlen]
    by_cases hchecked : t.db.Checked w d o n
    · rw [if_pos hchecked, if_pos fun i hi => hchecked.2 (by have := List.mem_range.mp hi; omega)]
      rfl
    · rw [if_neg hchecked, if_neg fun h => hchecked ⟨fun _ => hcan, fun hlt => h 0 (List.mem_range.mpr (by omega))⟩]
      rfl
  · rw [if_neg hcan, if_neg fun hc => hcan (hc.1 hn)]
    rfl

/-- **The scan of an order** ends at its first missing line. -/
theorem stockLevelLines_spec (ht : t.Sound) (hstock : t.db.InStock w d) {f : ℕ} (hmissing : ¬t.db.HasLine w d o f)
    {k : ℕ} (hk : n + k = 16) (hnf : n ≤ f) (hf : f ≤ 16) (hthere : ∀ m, n ≤ m → m < f → t.db.HasLine w d o m) :
    stockLevelLines w d threshold o (List.range' n k) t =
      if t.db.Checked w d o f then some ((List.range' n (f - n)).filterMap (t.db.lowItem w d o threshold), t)
      else none := by
  induction k generalizing n with
  | zero =>
    obtain rfl : f = n := by omega
    have hchecked : t.db.Checked w d o f := ⟨fun h => by omega, fun h => by omega⟩
    rw [if_pos hchecked, Nat.sub_self]
    rfl
  | succ k ih =>
    rw [List.range'_succ]
    by_cases heq : n = f
    · subst heq
      rw [stockLevelLines_missing ht hmissing (by omega), Nat.sub_self]
      rfl
    · have hlt : n < f := by omega
      obtain ⟨line, hline⟩ := Option.isSome_iff_exists.mp (hthere n le_rfl hlt)
      obtain ⟨s, hs⟩ := Option.isSome_iff_exists.mp (hstock hline)
      have hsub : f - n = (f - (n + 1)) + 1 := by omega
      rw [stockLevelLines_found hline hs, ih (by omega) (by omega) fun m hm => hthere m (by omega), hsub,
        List.range'_succ, List.filterMap_cons]
      have hlow : t.db.lowItem w d o threshold n = if s.sQuantity < threshold then some line.olIId else none := by
        rw [Db.lowItem, hline, Option.bind_eq_bind, Option.bind_some, hs, Option.bind_eq_bind, Option.bind_some]
      rw [hlow]
      by_cases hchecked : t.db.Checked w d o f
      · rw [if_pos hchecked, if_pos hchecked, Option.map_some]
        split <;> rfl
      · rw [if_neg hchecked, if_neg hchecked, Option.map_none]

/-! ### All orders -/

/-- The ids of the orders that `stockLevel` goes through. -/
def window (oId : ℤ) : List ℤ := (List.range stockLevelOrders).map fun i : ℕ => oId - stockLevelOrders + i

omit t in
theorem mem_window {oId : ℤ} : o ∈ window oId ↔ oId - 20 ≤ o ∧ o < oId := by
  rw [window, List.mem_map, stockLevelOrders]
  constructor
  · rintro ⟨i, hi, rfl⟩
    have := List.mem_range.mp hi
    omega
  · intro h
    exact ⟨(o - (oId - 20)).toNat, List.mem_range.mpr (by omega), by push_cast; omega⟩

omit t in
theorem window_eq_cons (oId : ℤ) : window oId = (oId - 20) :: (window oId).tail := by
  rw [window, stockLevelOrders]
  simp [List.range_succ_eq_map]

/-- The loops of `stockLevel`. -/
def lowItems (warehouseId districtId threshold oId : ℤ) : Op F (List (List ℤ)) :=
  (window oId).mapM fun orderId => stockLevelLines warehouseId districtId threshold orderId (List.range' 1 15)

theorem stockLevel_apply {dist : District F} (hdist : t.db.row .district (w, d) = some dist) :
    stockLevel w d threshold t = (lowItems w d threshold dist.dNextOId t).map fun r =>
      (numDistinct r.1.flatten, r.2) := by
  obtain ⟨p, hfind, hread⟩ := find_deref (Shows.findDistrict_finds w d) hdist
  have hrange : (do let i ← List.range stockLevelOrders; pure (i : ℤ)) =
      (List.range stockLevelOrders).map fun i : ℕ => (i : ℤ) := (List.map_eq_flatMap).symm
  rw [stockLevel, bind_apply, hfind, Option.bind_some, bind_apply, hread, Option.bind_some, bind_apply, hrange,
    List.mapM_map, lowItems, window, List.mapM_map, Option.map_eq_bind]
  rfl

/-- The orders that `stockLevel` gets to. Of each it looks up a line. -/
def stockLevelVisits (warehouseId districtId threshold : ℤ) : Tables F → List ℤ := fun t =>
  match (do deref .district (← findDistrict warehouseId districtId) : Op F (District F)) t with
  | none => []
  | some (d, t) => visited (fun orderId => stockLevelLines warehouseId districtId threshold orderId (List.range' 1 15))
      (window d.dNextOId) t

theorem stockLevelVisits_apply {dist : District F} (hdist : t.db.row .district (w, d) = some dist) :
    stockLevelVisits w d threshold t =
      visited (fun o => stockLevelLines w d threshold o (List.range' 1 15)) (window dist.dNextOId) t := by
  obtain ⟨p, hfind, hread⟩ := find_deref (Shows.findDistrict_finds w d) hdist
  rw [stockLevelVisits, bind_apply, hfind, Option.bind_some, hread]

theorem first_mem_stockLevelVisits {dist : District F} (hdist : t.db.row .district (w, d) = some dist) :
    dist.dNextOId - 20 ∈ stockLevelVisits w d threshold t := by
  rw [stockLevelVisits_apply hdist, window_eq_cons]
  exact head_mem_visited _ _ _ _

/-- An order id that no key can be made of ends `stockLevel`. -/
theorem stockLevel_eq_none (ht : t.Sound) {dist : District F} (hdist : t.db.row .district (w, d) = some dist)
    (hlow : dist.dNextOId - 20 < 1) : stockLevel w d threshold t = none := by
  have hcan : ¬Db.CanFind w d (dist.dNextOId - 20) 1 := fun hcan => by
    have := hcan.fits.2.2.1.1
    omega
  have hline : stockLevelLines w d threshold (dist.dNextOId - 20) (List.range' 1 15) t = none := by
    rw [List.range'_succ, stockLevelLines_missing ht (fun h => hcan (ht.keyed.canFind h)) (by decide),
      if_neg fun h => hcan (h.1 (by decide))]
  rw [stockLevel_apply hdist, lowItems, window_eq_cons, List.mapM_cons, bind_apply, hline]
  rfl

/-- **The scan of the window** ends if every order in it is as it wants. -/
theorem lowItems_spec (ht : t.Sound) (hstock : t.db.InStock w d) {f : ℤ → ℕ}
    (hf : ∀ o, f o ≤ 16 ∧ t.db.FirstMissing w d o (f o)) (oId : ℤ) :
    lowItems w d threshold oId t = if ∀ o ∈ window oId, t.db.Checked w d o (f o) then
      some ((window oId).map fun o => (List.range' 1 (f o - 1)).filterMap (t.db.lowItem w d o threshold), t)
    else none :=
  mapM_look _ fun o _ => stockLevelLines_spec ht hstock (hf o).2.missing (by decide) (hf o).2.pos (hf o).1
    (hf o).2.before

/-- Sorting and counting the changes counts the items: no item has the id `-1`. -/
theorem numDistinct_eq {l : List ℤ} (h : ∀ i ∈ l, 1 ≤ i) : numDistinct l = l.toFinset.card := by
  have hmem : ∀ i, i ∈ l.mergeSort (· ≤ ·) ↔ i ∈ l := fun i => (List.mergeSort_perm l _).mem_iff
  have hsorted : (l.mergeSort (· ≤ ·)).Pairwise (· ≤ ·) := List.pairwise_mergeSort' (· ≤ ·) l
  have hset : (l.mergeSort (· ≤ ·)).toFinset = l.toFinset := List.toFinset_eq_of_perm _ _ (List.mergeSort_perm l _)
  have hout : (-1 : ℤ) ∉ l.toFinset := fun hmem => by
    have := h _ (List.mem_toFinset.mp hmem)
    omega
  rw [numDistinct, foldl_changes hsorted fun i hi => by have := h i ((hmem i).mp hi); omega, hset,
    Finset.erase_eq_of_notMem hout, zero_add]

end Op

/-! ### Which lookups there are -/

namespace Db

variable {db : Db F} {w d oId : ℤ} {f : ℤ → ℕ}

/-- The number of the last line that is looked up, if the one with number `n` is the first missing. -/
def lastLookup (n : ℕ) : ℕ := min 15 (n + 1)

/-- No order of the window has the line after its first missing one. -/
def NextMissing (db : Db F) (w d oId : ℤ) : Prop :=
  ∀ o, oId - 20 ≤ o → o < oId → ∀ n, db.FirstMissing w d o n → n < 15 → ¬db.HasLine w d o (n + 1)

/-- No order of the window has a line further on than that. -/
def RestMissing (db : Db F) (w d oId : ℤ) : Prop :=
  ∀ o, oId - 20 ≤ o → o < oId → ∀ n, db.FirstMissing w d o n → ∀ m, n + 1 < m → m ≤ 15 → ¬db.HasLine w d o m

/-- The key of the last line that is looked up fits. -/
def LookupsFit (db : Db F) (w d oId : ℤ) : Prop :=
  ∀ n, db.FirstMissing w d (oId - 1) n → orderLineKeyFits w d (oId - 1) (lastLookup n)

/-- **The lookups of the window**: if the last one can be made, so can those before. -/
theorem checked_window_iff (hk : db.Keyed) (hw : validWarehouse w) (hd : validDistrict d) (hnext : 21 ≤ oId)
    (hf : ∀ o, f o ≤ 16 ∧ db.FirstMissing w d o (f o)) :
    (∀ o ∈ Op.window oId, db.Checked w d o (f o)) ↔ db.LookupsFit w d oId ∧ db.NextMissing w d oId := by
  have hlast : oId - 1 ∈ Op.window oId := Op.mem_window.mpr (by omega)
  constructor
  · intro h
    refine ⟨fun n hn => ?_, fun o ho ho' n hn hlt => ?_⟩
    · obtain rfl := (hf (oId - 1)).2.unique hn
      have hchecked := h _ hlast
      have hle := (hf (oId - 1)).1
      rw [lastLookup]
      rcases Nat.lt_trichotomy (f (oId - 1)) 15 with hlt | heq | hgt
      · rw [min_eq_right (by omega)]
        exact (hchecked.2 hlt).1.fits.2.2.2.2
      · rw [min_eq_left (by omega), ← heq]
        exact (hchecked.1 heq.le).fits.2.2.2.2
      · rw [min_eq_left (by omega)]
        exact (hk.canFind ((hf (oId - 1)).2.before 15 (by decide) hgt)).fits.2.2.2.2
    · obtain rfl := (hf o).2.unique hn
      exact ((h o (Op.mem_window.mpr ⟨ho, ho'⟩)).2 hlt).2
  · rintro ⟨hfits, hmissing⟩ o ho
    obtain ⟨hlow, hhigh⟩ := Op.mem_window.mp ho
    have hlastFits := hfits _ (hf (oId - 1)).2
    have hpos := (hf o).2.pos
    -- the numbers of an earlier order are not the last digits that matter
    have hcan : ∀ n : ℕ, 1 ≤ n → n ≤ 15 → (o = oId - 1 → n ≤ lastLookup (f (oId - 1))) → CanFind w d o n := by
      intro n hn hn' hle
      have hin : orderLineKeyFits w d o n := by
        unfold orderLineKeyFits at hlastFits ⊢
        omega
      refine canFind_of_fits hw hd ⟨by omega, ?_⟩ (show 1 ≤ (n : ℤ) ∧ (n : ℤ) ≤ 15 by omega) hin
      unfold orderLineKeyFits at hin
      rw [Order.maxOrderId]
      omega
    refine ⟨fun hle => hcan _ hpos hle fun heq => ?_, fun hlt => ⟨hcan _ (by omega) (by omega) fun heq => ?_, ?_⟩⟩
    · subst heq
      exact le_min hle (Nat.le_succ _)
    · subst heq
      exact le_min hlt le_rfl
    · exact hmissing o hlow hhigh _ (hf o).2 hlt

end Db

/-! ### What is counted -/

/-- **The lines are numbered** from one on, in each order. -/
def Db.Numbered (db : Db F) (w d : ℤ) (cnt : ℤ → ℕ) : Prop :=
  ∀ (o : ℤ) (n : ℕ), db.HasLine w d o n ↔ 1 ≤ n ∧ n ≤ cnt o

/-- The item is on a line of the last twenty orders before `oId`, and its stock is below the threshold. -/
def Db.IsLow (db : Db F) (w d oId threshold i : ℤ) : Prop :=
  ∃ (o : ℤ) (n : ℕ) (line : OrderLine F) (s : Stock), oId - 20 ≤ o ∧ o < oId ∧
    db.row .orderLine (w, d, o, (n : ℤ)) = some line ∧ line.olIId = i ∧ db.row .stock (w, i) = some s ∧
    s.sQuantity < threshold

namespace Tables

variable {t : Tables F} {w d : ℤ} {dist : District F}

/-- **Stock level counts the low items**, and no fewer with a higher threshold. -/
structure CountsLow (t : Tables F) (w d oId : ℤ) : Prop where
  counts (threshold : ℤ) : ∃ items : Finset ℤ, (∀ i, i ∈ items ↔ t.db.IsLow w d oId threshold i) ∧
    Op.stockLevel w d threshold t = some ((items.card : ℤ), t)
  monotone {threshold threshold' n n' : ℤ} {t₁ t₂ : Tables F} : threshold ≤ threshold' →
    Op.stockLevel w d threshold t = some (n, t₁) → Op.stockLevel w d threshold' t = some (n', t₂) → n ≤ n'

/-- What can be found of the district itself. -/
theorem Sound.valid_of_district (ht : t.Sound) (hdist : t.db.row .district (w, d) = some dist) :
    validWarehouse w ∧ validDistrict d := by
  obtain ⟨l, hl⟩ := Option.isSome_iff_exists.mp (ht.keyed.keys hdist)
  obtain ⟨key, hkey, -⟩ := Option.map_eq_some_iff.mp hl
  exact (makeDistrictKey_eq_some.mp hkey).1

/-- The items that a low line has are in stock. -/
theorem low_pos (ht : t.Sound) {i : ℤ} {s : Stock} (hs : t.db.row .stock (w, i) = some s) : 1 ≤ i := by
  obtain ⟨l, hl⟩ := Option.isSome_iff_exists.mp (ht.keyed.keys hs)
  obtain ⟨key, hkey, -⟩ := Option.map_eq_some_iff.mp hl
  exact (makeStockKey_eq_some.mp hkey).1.2.1

theorem lowItem_eq_some {db : Db F} {o threshold i : ℤ} {n : ℕ} : db.lowItem w d o threshold n = some i ↔
    ∃ line s, db.row .orderLine (w, d, o, (n : ℤ)) = some line ∧ line.olIId = i ∧
      db.row .stock (w, i) = some s ∧ Stock.sQuantity s < threshold := by
  constructor
  · intro h
    obtain ⟨line, hline, h⟩ := Option.bind_eq_some_iff.mp h
    obtain ⟨s, hs, h⟩ := Option.bind_eq_some_iff.mp h
    split at h
    · next hlt =>
      obtain rfl := Option.some.inj h
      exact ⟨line, s, hline, rfl, hs, hlt⟩
    · exact absurd h (by simp)
  · rintro ⟨line, s, hline, rfl, hs, hlt⟩
    rw [Db.lowItem, hline, Option.bind_eq_bind, Option.bind_some, hs, Option.bind_eq_bind, Option.bind_some,
      if_pos hlt]

/-- Numbered lines: the line after the last is the first that is missing. -/
theorem numbered_firstMissing (ht : t.Sound) {cnt : ℤ → ℕ} (hlines : t.db.Numbered w d cnt) (o : ℤ) :
    cnt o + 1 ≤ 16 ∧ t.db.FirstMissing w d o (cnt o + 1) := by
  have hmissing : ¬t.db.HasLine w d o (cnt o + 1) := fun h => by
    have := ((hlines o _).mp h).2
    omega
  refine ⟨?_, by omega, fun m hm hlt => (hlines o m).mpr ⟨hm, by omega⟩, hmissing⟩
  by_contra hgt
  have hlast := (hlines o (cnt o)).mpr ⟨by omega, le_rfl⟩
  have := (ht.keyed.le_of_hasLine hlast).2
  omega

/-- Numbered lines pass the check exactly if the last key that is looked up fits. -/
theorem numbered_checked_iff (ht : t.Sound) (hdist : t.db.row .district (w, d) = some dist)
    (hnext : 21 ≤ dist.dNextOId) {cnt : ℤ → ℕ} (hlines : t.db.Numbered w d cnt) :
    (∀ o ∈ Op.window dist.dNextOId, t.db.Checked w d o (cnt o + 1)) ↔
      orderLineKeyFits w d (dist.dNextOId - 1) (min 15 (cnt (dist.dNextOId - 1) + 2) : ℕ) := by
  have hf := numbered_firstMissing ht hlines
  obtain ⟨hw, hd⟩ := ht.valid_of_district hdist
  have hnextMissing : t.db.NextMissing w d dist.dNextOId := fun o _ _ n hn _ hline => by
    obtain rfl := (hf o).2.unique hn
    have := ((hlines o _).mp hline).2
    omega
  rw [Db.checked_window_iff ht.keyed hw hd hnext hf, and_iff_left hnextMissing]
  refine ⟨fun h => h _ (hf _).2, fun h n hn => ?_⟩
  obtain rfl := (hf _).2.unique hn
  exact h

/-- **Stock level counts distinct low items** of numbered lines. -/
theorem countsLow_of_fits (ht : t.Sound) (hdist : t.db.row .district (w, d) = some dist)
    (hnext : 21 ≤ dist.dNextOId) {cnt : ℤ → ℕ} (hlines : t.db.Numbered w d cnt) (hstock : t.db.InStock w d)
    (h : orderLineKeyFits w d (dist.dNextOId - 1) (min 15 (cnt (dist.dNextOId - 1) + 2) : ℕ)) :
    t.CountsLow w d dist.dNextOId := by
  have hf := numbered_firstMissing ht hlines
  have hall := (numbered_checked_iff ht hdist hnext hlines).mpr h
  have hrun : ∀ threshold, ∃ items : Finset ℤ, (∀ i, i ∈ items ↔ t.db.IsLow w d dist.dNextOId threshold i) ∧
      Op.stockLevel w d threshold t = some ((items.card : ℤ), t) := by
    intro threshold
    have hmem : ∀ i, i ∈ ((Op.window dist.dNextOId).map fun o =>
        (List.range' 1 (cnt o + 1 - 1)).filterMap (t.db.lowItem w d o threshold)).flatten ↔
          t.db.IsLow w d dist.dNextOId threshold i := by
      intro i
      simp only [List.mem_flatten, List.mem_map, exists_exists_and_eq_and, List.mem_filterMap, List.mem_range'_1,
        Op.mem_window, lowItem_eq_some]
      constructor
      · rintro ⟨o, ⟨hlow, hhigh⟩, n, -, line, s, hline, hid, hs, hlt⟩
        exact ⟨o, n, line, s, hlow, hhigh, hline, hid, hs, hlt⟩
      · rintro ⟨o, n, line, s, hlow, hhigh, hline, hid, hs, hlt⟩
        have hn := (hlines o n).mp (Option.isSome_of_eq_some hline)
        exact ⟨o, ⟨hlow, hhigh⟩, n, by omega, line, s, hline, hid, hs, hlt⟩
    refine ⟨_, fun i => List.mem_toFinset.trans (hmem i), ?_⟩
    rw [Op.stockLevel_apply hdist, Op.lowItems_spec ht hstock hf, if_pos hall, Option.map_some,
      Op.numDistinct_eq fun i hi => ?_]
    obtain ⟨_, _, _, s, -, -, -, -, hs, -⟩ := (hmem i).mp hi
    exact low_pos ht hs
  refine ⟨hrun, fun {threshold threshold' n n' t₁ t₂} hle h₁ h₂ => ?_⟩
  obtain ⟨items, hitems, hrun₁⟩ := hrun threshold
  obtain ⟨items', hitems', hrun₂⟩ := hrun threshold'
  obtain ⟨rfl, -⟩ := Prod.mk.inj (Option.some.inj (hrun₁.symm.trans h₁))
  obtain ⟨rfl, -⟩ := Prod.mk.inj (Option.some.inj (hrun₂.symm.trans h₂))
  refine Int.ofNat_le.mpr (Finset.card_le_card fun i hi => (hitems' i).mpr ?_)
  obtain ⟨o, m, line, s, hlow, hhigh, hline, hid, hs, hlt⟩ := (hitems i).mp hi
  exact ⟨o, m, line, s, hlow, hhigh, hline, hid, hs, lt_of_lt_of_le hlt hle⟩

/-- **Stock level counts distinct low items** exactly if the key of the last line it looks up fits. -/
theorem stockLevel_counts_iff (ht : t.Sound) (hdist : t.db.row .district (w, d) = some dist)
    (hnext : 21 ≤ dist.dNextOId) {cnt : ℤ → ℕ} (hlines : t.db.Numbered w d cnt) (hstock : t.db.InStock w d) :
    t.CountsLow w d dist.dNextOId ↔
      orderLineKeyFits w d (dist.dNextOId - 1) (min 15 (cnt (dist.dNextOId - 1) + 2) : ℕ) := by
  refine ⟨fun h => ?_, countsLow_of_fits ht hdist hnext hlines hstock⟩
  obtain ⟨items, -, hrun⟩ := h.counts 0
  rw [Op.stockLevel_apply hdist, Op.lowItems_spec ht hstock (numbered_firstMissing ht hlines)] at hrun
  by_contra hno
  rw [if_neg fun hc => hno ((numbered_checked_iff ht hdist hnext hlines).mp hc)] at hrun
  exact absurd hrun (by simp)

/-- No order of the window has a line after its first missing one. -/
def NoGap (t : Tables F) (w d oId : ℤ) : Prop :=
  ∀ o, oId - 20 ≤ o → o < oId → ∀ n, t.db.FirstMissing w d o n → ∀ m, n < m → m ≤ 15 → ¬t.db.HasLine w d o m

theorem noGap_iff {oId : ℤ} : t.NoGap w d oId ↔ t.db.NextMissing w d oId ∧ t.db.RestMissing w d oId := by
  constructor
  · exact fun h => ⟨fun o ho ho' n hn hlt => h o ho ho' n hn (n + 1) (Nat.lt_succ_self n) hlt,
      fun o ho ho' n hn m hm hle => h o ho ho' n hn m (by omega) hle⟩
  · rintro ⟨hnext, hrest⟩ o ho ho' n hn m hm hle
    rcases Nat.eq_or_lt_of_le hm with rfl | hlt
    · exact hnext o ho ho' n hn (by omega)
    · exact hrest o ho ho' n hn m hlt hle

/-- What the check lets pass. -/
theorem stockLevel_passes_iff (ht : t.Sound) (hdist : t.db.row .district (w, d) = some dist) (hnext : 21 ≤ dist.dNextOId)
    (hstock : t.db.InStock w d) (threshold : ℤ) : (∃ r, Op.stockLevel w d threshold t = some r) ↔
      t.db.LookupsFit w d dist.dNextOId ∧ t.db.NextMissing w d dist.dNextOId := by
  obtain ⟨hw, hd⟩ := ht.valid_of_district hdist
  choose f hf using ht.keyed.exists_firstMissing w d
  rw [← Db.checked_window_iff ht.keyed hw hd hnext hf, Op.stockLevel_apply hdist, Op.lowItems_spec ht hstock hf]
  split
  · next hall => exact ⟨fun _ => hall, fun _ => ⟨_, rfl⟩⟩
  · next hno => exact ⟨fun ⟨r, hr⟩ => absurd hr (by simp), fun hall => absurd hall hno⟩

/-- **The check finds every gap** exactly in a state where, if no order has the line after its first missing
one, there is none further on if and only if the last key looked up fits. So where all keys that are looked up fit,
exactly where no order has a line further on; and where one does not, there is no result at all. -/
theorem debugCheck_exact_iff (ht : t.Sound) (hdist : t.db.row .district (w, d) = some dist) (hnext : 21 ≤ dist.dNextOId)
    (hstock : t.db.InStock w d) (threshold : ℤ) :
    (((∃ r, Op.stockLevel w d threshold t = some r) ↔ t.NoGap w d dist.dNextOId) ↔
        (t.db.NextMissing w d dist.dNextOId →
          (t.db.RestMissing w d dist.dNextOId ↔ t.db.LookupsFit w d dist.dNextOId))) ∧
      (t.db.LookupsFit w d dist.dNextOId →
        (((∃ r, Op.stockLevel w d threshold t = some r) ↔ t.NoGap w d dist.dNextOId) ↔
          (t.db.NextMissing w d dist.dNextOId → t.db.RestMissing w d dist.dNextOId))) ∧
      (¬t.db.LookupsFit w d dist.dNextOId → Op.stockLevel w d threshold t = none) := by
  have hpasses := stockLevel_passes_iff ht hdist hnext hstock threshold
  have hexact : ((∃ r, Op.stockLevel w d threshold t = some r) ↔ t.NoGap w d dist.dNextOId) ↔
      (t.db.NextMissing w d dist.dNextOId →
        (t.db.RestMissing w d dist.dNextOId ↔ t.db.LookupsFit w d dist.dNextOId)) := by
    rw [hpasses, noGap_iff]
    constructor
    · intro h hmissing
      exact ⟨fun hrest => (h.mpr ⟨hmissing, hrest⟩).1, fun hfits => (h.mp ⟨hfits, hmissing⟩).2⟩
    · intro h
      exact ⟨fun ⟨hfits, hmissing⟩ => ⟨hmissing, (h hmissing).mpr hfits⟩,
        fun ⟨hmissing, hrest⟩ => ⟨(h hmissing).mp hrest, hmissing⟩⟩
  refine ⟨hexact, fun hfits => ?_, fun hfits => ?_⟩
  · rw [hexact]
    exact forall_congr' fun _ => ⟨fun h => h.mpr hfits, fun h => iff_of_true h hfits⟩
  · rw [← Option.not_isSome_iff_eq_none, Option.isSome_iff_exists, hpasses]
    exact fun h => hfits h.1

end Tables

/-! ### Two small databases -/

/-- A district with an order, of which there are some lines. -/
def linesDatabase (nextOId : ℤ) (ns : List ℤ) : List (Insertion ℚ) :=
  .stock ⟨1, 1, 50, 0, 0, 0, fun _ => .empty, .empty⟩ :: .district ⟨1, 1, 0, 0, nextOId, .empty, .zero⟩ ::
    ns.map fun n => .orderLine ⟨1, 1, 1, n, 1, 1, 5, 0, .empty, .empty⟩

/-- Their rows. -/
theorem linesDatabase_spec {nextOId : ℤ} {ns : List ℤ} {t : Tables ℚ}
    (h : insertAll (linesDatabase nextOId ns) Tables.empty = some ((), t)) :
    t.Sound ∧ (∃ dist, t.db.row .district (1, 1) = some dist ∧ dist.dNextOId = nextOId) ∧ t.db.InStock 1 1 ∧
      ∀ o n, t.db.HasLine 1 1 o n ↔ o = 1 ∧ (n : ℤ) ∈ ns := by
  have hkeyed : ∀ i ∈ linesDatabase nextOId ns, i.Keyed := by
    intro i hi
    simp only [linesDatabase, List.mem_cons, List.mem_map] at hi
    rcases hi with rfl | rfl | ⟨n, -, rfl⟩ <;> trivial
  obtain ⟨ht, hrun⟩ := insertAll_onDb Tables.empty_sound h
  have hadds := insertions_adds (hrun hkeyed)
  have hrow : ∀ {k : Kind} {id : RowId k} {r : Row ℚ k}, k ≠ .history → (t.db.row k id = some r ↔
      rowId k r = id ∧ r ∈ (linesDatabase nextOId ns).filterMap (Insertion.row k)) := fun {k id r} hk => by
    rw [hadds.row hk, Tables.empty_row]
    simp
  have hline : ∀ {o n : ℤ} {line : OrderLine ℚ}, t.db.row .orderLine (1, 1, o, n) = some line ↔
      o = 1 ∧ n ∈ ns ∧ line = ⟨1, 1, 1, n, 1, 1, 5, 0, .empty, .empty⟩ := fun {o n line} => by
    rw [hrow (by decide)]
    simp only [linesDatabase, List.filterMap_cons, Insertion.row, List.filterMap_map, List.mem_filterMap,
      Function.comp_apply, Option.some.injEq, rowId, Prod.mk.injEq]
    constructor
    · rintro ⟨⟨-, -, ho, hn⟩, m, hm, rfl⟩
      obtain rfl : m = n := hn
      exact ⟨ho.symm, hm, rfl⟩
    · rintro ⟨rfl, hn, rfl⟩
      exact ⟨⟨rfl, rfl, rfl, rfl⟩, n, hn, rfl⟩
  have hdist : t.db.row .district (1, 1) = some ⟨1, 1, 0, 0, nextOId, .empty, .zero⟩ := by
    rw [hrow (by decide)]
    exact ⟨rfl, List.mem_cons_self⟩
  have hstock : t.db.row .stock (1, 1) = some ⟨1, 1, 50, 0, 0, 0, fun _ => .empty, .empty⟩ := by
    rw [hrow (by decide)]
    exact ⟨rfl, List.mem_cons_self⟩
  refine ⟨ht, ⟨_, hdist, rfl⟩, fun {o n line} hl => ?_, fun o n => ?_⟩
  · obtain ⟨-, -, rfl⟩ := hline.mp hl
    exact Option.isSome_of_eq_some hstock
  · rw [Db.HasLine, Option.isSome_iff_exists]
    simp only [hline]
    constructor
    · rintro ⟨line, ho, hn, -⟩
      exact ⟨ho, hn⟩
    · rintro ⟨ho, hn⟩
      exact ⟨_, ho, hn, rfl⟩

/-- One order with two lines. -/
theorem stockLevel_counts_two : ∃ t : Tables ℚ, insertAll (linesDatabase 21 [1, 2]) Tables.empty = some ((), t) ∧
    t.CountsLow 1 1 21 := by
  have hrun : (insertAll (linesDatabase 21 [1, 2]) Tables.empty).isSome := by decide +kernel
  obtain ⟨⟨⟨⟩, t⟩, hrun⟩ := Option.isSome_iff_exists.mp hrun
  obtain ⟨ht, ⟨dist, hdist, hnext⟩, hstock, hlines⟩ := linesDatabase_spec hrun
  have hnum : t.db.Numbered 1 1 fun o => if o = 1 then 2 else 0 := fun o n => by
    rw [hlines]
    by_cases ho : o = 1
    · simp [ho]
      omega
    · simp [ho]
      omega
  have hcount := Tables.stockLevel_counts_iff ht hdist (by omega) hnum hstock
  rw [hnext] at hcount
  exact ⟨t, hrun, hcount.mpr (by decide)⟩

/-- A district that has had many orders, of which none is there: the keys do not fit. -/
theorem stockLevel_not_counts : ¬∀ (t : Tables ℚ) (w d : ℤ) (dist : District ℚ) (cnt : ℤ → ℕ), t.Sound →
    t.db.row .district (w, d) = some dist → 21 ≤ dist.dNextOId → t.db.Numbered w d cnt → t.db.InStock w d →
      t.CountsLow w d dist.dNextOId := by
  intro h
  have hrun : ((insertAll (linesDatabase 200000 []) Tables.empty).bind fun r =>
      some (Op.stockLevel 1 1 10 r.2).isSome) = some false := by decide +kernel
  obtain ⟨⟨⟨⟩, t⟩, hrun, hnone⟩ := Option.bind_eq_some_iff.mp hrun
  obtain ⟨ht, ⟨dist, hdist, hnext⟩, hstock, hlines⟩ := linesDatabase_spec hrun
  obtain ⟨items, -, hsome⟩ := (h t 1 1 dist (fun _ => 0) ht hdist (by omega) (fun o n => by
    rw [hlines]
    simp
    omega) hstock).counts 10
  rw [hsome] at hnone
  exact absurd hnone (by simp)

/-- Two lines, and none after. -/
theorem debugCheck_two : ∃ t : Tables ℚ, insertAll (linesDatabase 21 [1, 2]) Tables.empty = some ((), t) ∧
    ((∃ r, Op.stockLevel 1 1 10 t = some r) ↔ t.NoGap 1 1 21) := by
  have hrun : (insertAll (linesDatabase 21 [1, 2]) Tables.empty).isSome := by decide +kernel
  obtain ⟨⟨⟨⟩, t⟩, hrun⟩ := Option.isSome_iff_exists.mp hrun
  obtain ⟨ht, ⟨dist, hdist, hnext⟩, hstock, hlines⟩ := linesDatabase_spec hrun
  have hexact := Tables.debugCheck_exact_iff ht hdist (by omega) hstock 10
  rw [hnext] at hexact
  refine ⟨t, hrun, hexact.1.mpr fun _ => ⟨fun _ n _ => Or.inl (by decide), fun _ o _ _ n hn m hm _ hline => ?_⟩⟩
  -- a line further on is not one of the first two
  obtain ⟨rfl, hmem⟩ := (hlines o m).mp hline
  have hle : m ≤ 2 := by
    simp only [List.mem_cons, List.not_mem_nil, or_false] at hmem
    omega
  have hpos := hn.pos
  exact hn.missing ((hlines 1 n).mpr ⟨rfl, by simp; omega⟩)

/-- The fifth line is there, the third and the fourth are not. The check looks up the fourth only. -/
theorem debugCheck_not_exact : ¬∀ (t : Tables ℚ) (w d : ℤ) (dist : District ℚ), t.Sound →
    t.db.row .district (w, d) = some dist → 21 ≤ dist.dNextOId → t.db.InStock w d → ∀ threshold,
      (∃ r, Op.stockLevel w d threshold t = some r) ↔ t.NoGap w d dist.dNextOId := by
  intro h
  have hrun : ((insertAll (linesDatabase 21 [1, 2, 5]) Tables.empty).bind fun r =>
      some (Op.stockLevel 1 1 10 r.2).isSome) = some true := by decide +kernel
  obtain ⟨⟨⟨⟩, t⟩, hrun, hsome⟩ := Option.bind_eq_some_iff.mp hrun
  obtain ⟨ht, ⟨dist, hdist, hnext⟩, hstock, hlines⟩ := linesDatabase_spec hrun
  have hgap := (h t 1 1 dist ht hdist (by omega) hstock 10).mp (Option.isSome_iff_exists.mp (Option.some.inj hsome))
  have hmissing : t.db.FirstMissing 1 1 1 3 := by
    refine ⟨by decide, fun m hm hlt => (hlines 1 m).mpr ⟨rfl, ?_⟩, fun hline => ?_⟩
    · simp
      omega
    · exact absurd ((hlines 1 3).mp hline).2 (by decide)
  exact hgap 1 (by omega) (by omega) 3 hmissing 5 (by decide) (by decide) ((hlines 1 5).mpr ⟨rfl, by decide⟩)

end TpccBench
