import TpccBench.Lib.SortedAssoc

/-!
# Ordered maps

A map that is gone through in key order: the list of its entries, which carries the proof
that the keys increase. It is determined by what it finds
(`TpccBench.OrderedMap.ext_find`).
-/

namespace TpccBench

/-- A map in key order. -/
structure OrderedMap (K V : Type) [LinearOrder K] where
  entries : List (K × V)
  sorted : Assoc.Sorted entries

namespace OrderedMap

variable {K V : Type} [LinearOrder K]

def empty : OrderedMap K V := ⟨[], List.Pairwise.nil⟩

/-- The value at a key. -/
def find (m : OrderedMap K V) (k : K) : Option V := m.entries.lookup k

/-- Set the value at a key. -/
def insert (m : OrderedMap K V) (k : K) (v : V) : OrderedMap K V :=
  ⟨Assoc.upsert k v m.entries, Assoc.sorted_upsert m.sorted⟩

/-- Take a key out. -/
def erase (m : OrderedMap K V) (k : K) : OrderedMap K V :=
  ⟨m.entries.filter fun e => e.1 ≠ k, m.sorted.filter _⟩

/-- The first entry with a key at or above `k`. -/
def lowerBound (m : OrderedMap K V) (k : K) : Option (K × V) := Assoc.lowerBound k m.entries

variable {m m' : OrderedMap K V} {k k' : K} {v : V}

@[simp] theorem find_empty : (empty : OrderedMap K V).find k = none := rfl

theorem find_insert : (m.insert k v).find k' = if k' = k then some v else m.find k' :=
  Assoc.lookup_upsert k v m.entries k'

theorem mem_entries : (k, v) ∈ m.entries ↔ m.find k = some v :=
  ⟨fun h => Assoc.lookup_of_mem m.sorted h, fun h => Assoc.mem_of_lookup h⟩

theorem find_erase : (m.erase k).find k' = if k' = k then none else m.find k' := by
  split
  · next h =>
    refine Assoc.lookup_eq_none_of_ne fun e he => ?_
    rw [h]
    simpa using (List.mem_filter.mp he).2
  · next h =>
    refine Option.ext fun w => ?_
    rw [← mem_entries, ← mem_entries]
    simp [erase, h]

/-- **A map is what it finds.** -/
theorem ext_find (h : ∀ k, m.find k = m'.find k) : m = m' := by
  obtain ⟨l, hl⟩ := m
  obtain ⟨l', hl'⟩ := m'
  have hperm : l.Perm l' := by
    refine (List.perm_ext_iff_of_nodup ?_ ?_).mpr fun e => ?_
    · exact hl.imp fun hab heq => absurd (heq ▸ hab) (lt_irrefl _)
    · exact hl'.imp fun hab heq => absurd (heq ▸ hab) (lt_irrefl _)
    · obtain ⟨k, v⟩ := e
      rw [mem_entries (m := ⟨l, hl⟩), mem_entries (m := ⟨l', hl'⟩), h]
  congr
  exact hperm.eq_of_pairwise (fun a b _ _ hab hba => absurd (lt_trans hab hba) (lt_irrefl _)) hl hl'

/-- **The first entry at or above a key.** -/
theorem lowerBound_eq_some : m.lowerBound k = some (k', v) ↔
    m.find k' = some v ∧ k ≤ k' ∧ ∀ k'' w, m.find k'' = some w → k ≤ k'' → k' ≤ k'' := by
  rw [← mem_entries, lowerBound, Assoc.lowerBound, List.find?_eq_some_iff_append]
  constructor
  · rintro ⟨hk, l₁, l₂, heq, hlt⟩
    refine ⟨by rw [heq]; simp, by simpa using hk, fun k'' w hw hk'' => ?_⟩
    rw [← mem_entries, heq] at hw
    rcases List.mem_append.mp hw with hw | hw
    · have hlt := hlt _ hw
      simp only [Bool.not_eq_eq_eq_not, Bool.not_true, decide_eq_false_iff_not] at hlt
      exact absurd hk'' hlt
    · rcases List.mem_cons.mp hw with hw | hw
      · exact le_of_eq (Prod.mk.inj hw).1.symm
      · have hs := m.sorted
        rw [heq] at hs
        exact le_of_lt (List.rel_of_pairwise_cons (List.pairwise_append.mp hs).2.1 hw)
  · rintro ⟨hmem, hk, hleast⟩
    obtain ⟨l₁, l₂, heq⟩ := List.append_of_mem hmem
    refine ⟨by simpa using hk, l₁, l₂, heq, fun e he => ?_⟩
    have hs := m.sorted
    rw [heq] at hs
    have hlt : e.1 < k' := (List.pairwise_append.mp hs).2.2 e he _ List.mem_cons_self
    have hfind : m.find e.1 = some e.2 := mem_entries.mp (heq ▸ List.mem_append_left _ he)
    simp only [Bool.not_eq_eq_eq_not, Bool.not_true, decide_eq_false_iff_not]
    exact fun hle => absurd (hleast _ _ hfind hle) (not_le_of_gt hlt)

theorem lowerBound_eq_none : m.lowerBound k = none ↔ ∀ k' w, m.find k' = some w → k' < k := by
  rw [lowerBound, Assoc.lowerBound, List.find?_eq_none]
  constructor
  · intro h k' w hw
    simpa using h _ (mem_entries.mpr hw)
  · rintro h ⟨k', w⟩ he
    simpa using h k' w (mem_entries.mp he)

/-- An entry below `k` does not matter for the first one at or above `k`. -/
theorem lowerBound_erase_of_lt (h : k' < k) : (m.erase k').lowerBound k = m.lowerBound k := by
  have hfind : ∀ i, k ≤ i → (m.erase k').find i = m.find i := fun i hi => by
    rw [find_erase, if_neg (ne_of_gt (lt_of_lt_of_le h hi))]
  refine Option.ext fun e => ?_
  obtain ⟨i, w⟩ := e
  rw [lowerBound_eq_some, lowerBound_eq_some]
  constructor
  · rintro ⟨hw, hi, hleast⟩
    refine ⟨(hfind i hi).symm.trans hw, hi, fun i' w' hw' hi' => ?_⟩
    exact hleast i' w' ((hfind i' hi').trans hw') hi'
  · rintro ⟨hw, hi, hleast⟩
    refine ⟨(hfind i hi).trans hw, hi, fun i' w' hw' hi' => ?_⟩
    exact hleast i' w' ((hfind i' hi').symm.trans hw') hi'

end OrderedMap

end TpccBench
