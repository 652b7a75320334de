import Mathlib.Tactic

/-!
# Numerals of a fixed width

A number is written with so many digits, the most significant one first (`TpccBench.Numeral.write`), and read from
the left (`TpccBench.Numeral.read`). Numerals of the same width compare as their numbers
(`TpccBench.Numeral.read_lt_read_iff`), and so a record that is written field by field, each field with the width
of its place, is read back field by field and compares as the list of its fields
(`TpccBench.Numeral.record_lt_record_iff`).
-/

namespace TpccBench

namespace Numeral

/-! ### Lists in lexicographic order -/

/-- Lists compare by their first parts, if these have the same length. -/
theorem append_lt_append_iff {α : Type*} [LT α] {l₁ l₂ l₁' l₂' : List α} (h : l₁.length = l₁'.length) :
    l₁ ++ l₂ < l₁' ++ l₂' ↔ l₁ < l₁' ∨ l₁ = l₁' ∧ l₂ < l₂' := by
  induction l₁ generalizing l₁' with
  | nil =>
    obtain rfl := List.length_eq_zero_iff.mp h.symm
    simp
  | cons a l₁ ih =>
    cases l₁' with
    | nil => exact absurd h (Nat.succ_ne_zero _)
    | cons b l₁' =>
      rw [List.cons_append, List.cons_append, List.cons_lt_cons_iff, List.cons_lt_cons_iff,
        ih (Nat.succ_injective h), List.cons.injEq]
      tauto

/-- A change of the letters that keeps their order keeps the order of the words. -/
theorem map_lt_map_iff {α β : Type*} [LT α] [LT β] {f : α → β} {l l' : List α}
    (hlt : ∀ a ∈ l, ∀ b ∈ l', (f a < f b ↔ a < b)) (hinj : ∀ a ∈ l, ∀ b ∈ l', f a = f b → a = b) :
    l.map f < l'.map f ↔ l < l' := by
  induction l generalizing l' with
  | nil => cases l' <;> simp
  | cons a l ih =>
    cases l' with
    | nil => simp
    | cons b l' =>
      have heq : f a = f b ↔ a = b :=
        ⟨hinj a List.mem_cons_self b List.mem_cons_self, congrArg f⟩
      rw [List.map_cons, List.map_cons, List.cons_lt_cons_iff, List.cons_lt_cons_iff,
        hlt a List.mem_cons_self b List.mem_cons_self, heq]
      refine or_congr_right (and_congr_right fun _ => ih ?_ ?_)
      · intro c hc d hd
        exact hlt c (List.mem_cons_of_mem _ hc) d (List.mem_cons_of_mem _ hd)
      · intro c hc d hd
        exact hinj c (List.mem_cons_of_mem _ hc) d (List.mem_cons_of_mem _ hd)

/-! ### One number -/

variable {b : ℕ} {ds ds' : List ℕ}

/-- The number that digits stand for. -/
def read (b : ℕ) (ds : List ℕ) : ℕ := ds.foldl (fun v d => v * b + d) 0

/-- The last `n` digits of a number. -/
def write (b : ℕ) : ℕ → ℕ → List ℕ
  | 0, _ => []
  | n + 1, v => write b n (v / b) ++ [v % b]

@[simp] theorem read_nil : read b [] = 0 := rfl

theorem read_snoc (d : ℕ) : read b (ds ++ [d]) = read b ds * b + d := List.foldl_append

theorem read_append : read b (ds ++ ds') = read b ds * b ^ ds'.length + read b ds' := by
  induction ds' using List.reverseRecOn with
  | nil => simp
  | append_singleton ds' d ih =>
    rw [← List.append_assoc, read_snoc, ih, read_snoc, List.length_append, List.length_singleton]
    ring

theorem read_cons (d : ℕ) : read b (d :: ds) = d * b ^ ds.length + read b ds := by
  have hone : read b [d] = d := by simp [read]
  have happend : read b ([d] ++ ds) = read b [d] * b ^ ds.length + read b ds := read_append
  rwa [hone] at happend

theorem read_lt (h : ∀ d ∈ ds, d < b) : read b ds < b ^ ds.length := by
  induction ds with
  | nil => simp
  | cons d ds ih =>
    obtain ⟨hd, hds⟩ := List.forall_mem_cons.mp h
    have hlt := ih hds
    rw [read_cons, List.length_cons, pow_succ]
    calc d * b ^ ds.length + read b ds < d * b ^ ds.length + b ^ ds.length := by omega
      _ = (d + 1) * b ^ ds.length := by ring
      _ ≤ b * b ^ ds.length := Nat.mul_le_mul_right _ hd
      _ = b ^ ds.length * b := Nat.mul_comm _ _

@[simp] theorem length_write (n v : ℕ) : (write b n v).length = n := by
  induction n generalizing v with
  | zero => rfl
  | succ n ih => rw [write, List.length_append, ih, List.length_singleton]

theorem write_lt (hb : 0 < b) {n v d : ℕ} (h : d ∈ write b n v) : d < b := by
  induction n generalizing v with
  | zero => exact absurd h List.not_mem_nil
  | succ n ih =>
    rw [write, List.mem_append, List.mem_singleton] at h
    rcases h with h | rfl
    · exact ih h
    · exact Nat.mod_lt _ hb

/-- **What is written is read**, up to the width. -/
theorem read_write (n v : ℕ) : read b (write b n v) = v % b ^ n := by
  induction n generalizing v with
  | zero => simp [write, Nat.mod_one]
  | succ n ih =>
    rw [write, read_snoc, ih, pow_succ', Nat.mod_mul, Nat.mul_comm, Nat.add_comm]

/-- **Numerals of the same width compare as their numbers.** -/
theorem read_lt_read_iff (h : ∀ d ∈ ds, d < b) (h' : ∀ d ∈ ds', d < b) (hlen : ds.length = ds'.length) :
    read b ds < read b ds' ↔ ds < ds' := by
  induction ds generalizing ds' with
  | nil =>
    obtain rfl := List.length_eq_zero_iff.mp hlen.symm
    simp
  | cons d ds ih =>
    cases ds' with
    | nil => exact absurd hlen (Nat.succ_ne_zero _)
    | cons d' ds' =>
      obtain ⟨-, hds⟩ := List.forall_mem_cons.mp h
      obtain ⟨-, hds'⟩ := List.forall_mem_cons.mp h'
      have hlen' : ds.length = ds'.length := Nat.succ_injective hlen
      have hlt := read_lt hds
      have hlt' := read_lt hds'
      rw [read_cons, read_cons, List.cons_lt_cons_iff, ← ih hds hds' hlen', hlen']
      rw [hlen'] at hlt
      -- the rest of a numeral is less than one unit of the first digit
      rcases lt_trichotomy d d' with hd | rfl | hd
      · have hunit : (d + 1) * b ^ ds'.length ≤ d' * b ^ ds'.length := Nat.mul_le_mul_right _ hd
        rw [Nat.add_mul, Nat.one_mul] at hunit
        exact ⟨fun _ => Or.inl hd, fun _ => by omega⟩
      · rw [Nat.add_lt_add_iff_left]
        simp
      · have hunit : (d' + 1) * b ^ ds'.length ≤ d * b ^ ds'.length := Nat.mul_le_mul_right _ hd
        rw [Nat.add_mul, Nat.one_mul] at hunit
        exact ⟨fun hlt => by omega, fun hlt => by omega⟩

/-! ### A record -/

/-- A record, each field with its width. -/
def record (b : ℕ) (ws vs : List ℕ) : List ℕ := (List.zipWith (write b) ws vs).flatten

/-- The fields of a record. -/
def fields (b : ℕ) : List ℕ → List ℕ → List ℕ
  | [], _ => []
  | n :: ws, ds => read b (ds.take n) :: fields b ws (ds.drop n)

/-- **Each field has room.** -/
abbrev Fit (b : ℕ) (ws vs : List ℕ) : Prop := List.Forall₂ (fun n v => v < b ^ n) ws vs

variable {ws vs vs' : List ℕ}

theorem length_record (h : ws.length = vs.length) : (record b ws vs).length = ws.sum := by
  induction ws generalizing vs with
  | nil => rfl
  | cons n ws ih =>
    cases vs with
    | nil => exact absurd h (Nat.succ_ne_zero _)
    | cons v vs =>
      have hrest : (record b ws vs).length = ws.sum := ih (Nat.succ_injective h)
      rw [record] at hrest
      rw [record, List.zipWith_cons_cons, List.flatten_cons, List.length_append, hrest, length_write, List.sum_cons]

theorem record_lt (hb : 0 < b) {d : ℕ} (h : d ∈ record b ws vs) : d < b := by
  obtain ⟨ds, hds, hd⟩ := List.mem_flatten.mp h
  obtain ⟨i, hi, rfl⟩ := List.mem_iff_getElem.mp hds
  rw [List.getElem_zipWith] at hd
  exact write_lt hb hd

/-- **A record is read back.** -/
theorem fields_record (h : Fit b ws vs) : fields b ws (record b ws vs) = vs := by
  induction h with
  | nil => rfl
  | @cons n v ws vs hv _ ih =>
    have hsplit : record b (n :: ws) (v :: vs) = write b n v ++ record b ws vs := by
      rw [record, List.zipWith_cons_cons, List.flatten_cons, record]
    rw [fields, hsplit, List.take_left' (length_write n v), List.drop_left' (length_write n v), ih, read_write,
      Nat.mod_eq_of_lt hv]

/-- **Records compare as the lists of their fields.** -/
theorem record_lt_record_iff (hb : 0 < b) (h : Fit b ws vs) (h' : Fit b ws vs') :
    record b ws vs < record b ws vs' ↔ vs < vs' := by
  induction h generalizing vs' with
  | nil =>
    obtain rfl := List.forall₂_nil_left_iff.mp h'
    simp
  | @cons n v ws vs hv _ ih =>
    obtain ⟨v', vs', hv', hrest', rfl⟩ := List.forall₂_cons_left_iff.mp h'
    have hsplit : ∀ x xs, record b (n :: ws) (x :: xs) = write b n x ++ record b ws xs := by
      intro x xs
      rw [record, List.zipWith_cons_cons, List.flatten_cons, record]
    have hread : ∀ {x}, x < b ^ n → read b (write b n x) = x := by
      intro x hx
      rw [read_write, Nat.mod_eq_of_lt hx]
    have hlt : write b n v < write b n v' ↔ v < v' := by
      rw [← read_lt_read_iff (fun _ => write_lt hb) (fun _ => write_lt hb) (by simp), hread hv, hread hv']
    have heq : write b n v = write b n v' ↔ v = v' := by
      refine ⟨fun h => ?_, fun h => by rw [h]⟩
      rw [← hread hv, h, hread hv']
    rw [hsplit, hsplit, append_lt_append_iff (by simp), hlt, heq, ih hrest', List.cons_lt_cons_iff]

end Numeral

end TpccBench
