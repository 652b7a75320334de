import TpccBench.Tables.ByName

/-!
# The customers of a district in name order

The set of customers has those of all districts, and those of one district stand together in it, whatever is
before them and after them. A search for a name of the district ends among them
(`TpccBench.Op.search_own`), and what it does there depends on the names alone (`TpccBench.Op.search_sim`).
-/

namespace TpccBench

open Prog

variable {F : Type}

namespace Op

variable {w d : ℤ} {cLast : List Char} {l l' : List (Ptr × NameKey)}

/-- The customers of a district. -/
def own (w d : ℤ) (l : List (Ptr × NameKey)) : List (Ptr × NameKey) :=
  l.filter fun e => e.2.cWId = w ∧ e.2.cDId = d

/-- What `findCustomerByName` does with the customers in name order. -/
def search (wId dId : ℤ) (cLast : List Char) (l : List (Ptr × NameKey)) : Op F (Option Ptr) := do
  let it := lowerBound ⟨wId, dId, cLast, []⟩ l
  assert (∃ e ∈ l[it]?, e.2.cWId = wId ∧ e.2.cDId = dId ∧ e.2.cLast = cLast)
  let stop := lowerBound ⟨wId, dId, nextLast cLast, []⟩ l
  assert (it ≤ stop)
  let found := (l.drop it).take (stop - it)
  let middle ← found.tail.foldlM (fun (r : ℕ × ℕ) e => do
    assert (e.2.cLast = cLast)
    return (if r.2 % 2 = 1 then r.1 + 1 else r.1, r.2 + 1)) (0, 0)
  let customer := found[middle.1]?
  assert (∃ e ∈ customer, e.2.cWId = wId ∧ e.2.cDId = dId ∧ e.2.cLast = cLast)
  return customer.map Prod.fst

theorem findCustomerByName_eq : findCustomerByName (F := F) w d cLast =
    assert (cLast.length ≤ 16) >>= fun _ => byName >>= fun l => search w d cLast l := rfl

/-! ### Together -/

/-- **The customers of a district stand together**: what is before them has smaller ids, what is after them
greater ones. -/
theorem exists_own (h : Increasing Prod.snd l) (w d : ℤ) : ∃ before after, l = before ++ (own w d l ++ after) ∧
    (∀ e ∈ before, e.2.cWId < w ∨ e.2.cWId = w ∧ e.2.cDId < d) ∧
      ∀ e ∈ after, w < e.2.cWId ∨ w = e.2.cWId ∧ d < e.2.cDId := by
  let below (e : Ptr × NameKey) : Prop := e.2.cWId < w ∨ e.2.cWId = w ∧ e.2.cDId < d
  let upTo (e : Ptr × NameKey) : Prop := e.2.cWId < w ∨ e.2.cWId = w ∧ e.2.cDId ≤ d
  have hbelow : ∀ e e' : Ptr × NameKey, e.2 < e'.2 → below e' → below e := fun e e' hlt he' => by
    rw [NameKey.lt_iff] at hlt
    simp only [below] at he' ⊢
    omega
  have hupTo : ∀ e e' : Ptr × NameKey, e.2 < e'.2 → upTo e' → upTo e := fun e e' hlt he' => by
    rw [NameKey.lt_iff] at hlt
    simp only [upTo] at he' ⊢
    omega
  have hrest : Increasing Prod.snd (l.filter fun e => ¬below e) := List.Pairwise.filter _ h
  have hown : ((l.filter fun e => ¬below e).filter fun e => upTo e) = own w d l := by
    rw [List.filter_filter, own]
    refine List.filter_congr fun e _ => ?_
    rw [Bool.eq_iff_iff]
    simp only [below, upTo, Bool.and_eq_true, decide_eq_true_eq]
    omega
  refine ⟨l.filter fun e => below e, (l.filter fun e => ¬below e).filter fun e => ¬upTo e, ?_, fun e he => ?_,
    fun e he => ?_⟩
  · rw [← hown, hrest.filter_append hupTo, h.filter_append hbelow]
  · exact of_decide_eq_true (List.mem_filter.mp he).2
  · have hnot := of_decide_eq_true (List.mem_filter.mp he).2
    simp only [upTo] at hnot
    omega

/-- The place of a name of the district. -/
theorem lowerBound_own {before after : List (Ptr × NameKey)}
    (hbefore : ∀ e ∈ before, e.2.cWId < w ∨ e.2.cWId = w ∧ e.2.cDId < d)
    (hafter : ∀ e ∈ after, w < e.2.cWId ∨ w = e.2.cWId ∧ d < e.2.cDId) (name : List Char) :
    lowerBound ⟨w, d, name, []⟩ (before ++ (l ++ after)) = before.length + lowerBound ⟨w, d, name, []⟩ l := by
  rw [lowerBound_eq_below, lowerBound_eq_below, below_append, below_append_of_le]
  · intro e he
    rw [← not_lt, NameKey.lt_cLast_iff]
    have := hafter e he
    omega
  · intro e he
    rw [NameKey.lt_cLast_iff]
    have := hbefore e he
    omega

theorem lowerBound_le (key : NameKey) (l : List (Ptr × NameKey)) : lowerBound key l ≤ l.length :=
  (List.takeWhile_prefix _).length_le

theorem assert_congr {S : Type} {p q : Prop} [Decidable p] [Decidable q] (h : p ↔ q) :
    (assert p : Prog S Unit) = assert q := by
  funext s
  rw [assert, assert]
  exact if_congr h rfl rfl

/-- **A search ends among the customers of the district.** -/
theorem search_own (h : Increasing Prod.snd l) (w d : ℤ) (cLast : List Char) :
    search (F := F) w d cLast l = search w d cLast (own w d l) := by
  obtain ⟨before, after, heq, hbefore, hafter⟩ := exists_own h w d
  generalize own w d l = o at heq ⊢
  subst heq
  have hle := lowerBound_le ⟨w, d, nextLast cLast, []⟩ o
  rw [search, search, lowerBound_own hbefore hafter, lowerBound_own hbefore hafter]
  generalize lowerBound ⟨w, d, cLast, []⟩ o = i
  generalize lowerBound ⟨w, d, nextLast cLast, []⟩ o = j at hle ⊢
  have hfirst : (∃ e ∈ (before ++ (o ++ after))[before.length + i]?,
      e.2.cWId = w ∧ e.2.cDId = d ∧ e.2.cLast = cLast) ↔
        ∃ e ∈ o[i]?, e.2.cWId = w ∧ e.2.cDId = d ∧ e.2.cLast = cLast := by
    rw [List.getElem?_append_right (by omega), Nat.add_sub_cancel_left]
    constructor
    · rintro ⟨e, he, hw, hd, hlast⟩
      by_cases hi : i < o.length
      · exact ⟨e, by rwa [List.getElem?_append_left hi] at he, hw, hd, hlast⟩
      · rw [List.getElem?_append_right (by omega)] at he
        have := hafter e (List.mem_of_getElem? he)
        omega
    · rintro ⟨e, he, hmatch⟩
      obtain ⟨hi, -⟩ := List.getElem?_eq_some_iff.mp he
      exact ⟨e, by rwa [List.getElem?_append_left hi], hmatch⟩
  have hfound : ((before ++ (o ++ after)).drop (before.length + i)).take (before.length + j - (before.length + i)) =
      (o.drop i).take (j - i) := by
    rw [List.drop_append, List.drop_of_length_le (by omega), List.nil_append, Nat.add_sub_cancel_left,
      Nat.add_sub_add_left, List.drop_append, List.take_append, List.length_drop]
    rw [show j - i - (o.length - i) = 0 by omega, List.take_zero, List.append_nil]
  dsimp only
  rw [hfound, assert_congr hfirst, assert_congr (show before.length + i ≤ before.length + j ↔ i ≤ j by omega)]

/-! ### Names alone -/

/-- **A search depends on the names**: with the same names it ends at entries with the same name, or fails. -/
theorem search_sim {P : Tables F → Tables F → Prop} (h : l.map Prod.snd = l'.map Prod.snd) :
    Sim P (search w d cLast l) (search w d cLast l') fun p q s t =>
      (∃ e ∈ l, ∃ e' ∈ l', p = some e.1 ∧ q = some e'.1 ∧ e.2 = e'.2) ∧ P s t := by
  have hbound : ∀ key, lowerBound key l = lowerBound key l' := fun key => by
    have hmap : ∀ l : List (Ptr × NameKey), lowerBound key l =
        ((l.map Prod.snd).takeWhile fun k => customerByNameOrdering k key).length := fun l => by
      rw [List.takeWhile_map, List.length_map]
      rfl
    rw [hmap, hmap, h]
  have hexists : ∀ {m m' : List (Ptr × NameKey)} (i : ℕ), m.map Prod.snd = m'.map Prod.snd → ∀ p : NameKey → Prop,
      ((∃ e ∈ m[i]?, p e.2) ↔ ∃ e ∈ m'[i]?, p e.2) := by
    intro m m' i hm p
    have hmap : ∀ m : List (Ptr × NameKey), (∃ e ∈ m[i]?, p e.2) ↔ ∃ k ∈ (m.map Prod.snd)[i]?, p k := fun m => by
      rw [List.getElem?_map]
      constructor
      · rintro ⟨e, he, hp⟩
        exact ⟨e.2, Option.map_eq_some_iff.mpr ⟨e, he, rfl⟩, hp⟩
      · rintro ⟨k, hk, hp⟩
        obtain ⟨e, he, rfl⟩ := Option.map_eq_some_iff.mp hk
        exact ⟨e, he, hp⟩
    rw [hmap, hmap, hm]
  rw [search, search, hbound, hbound]
  generalize lowerBound ⟨w, d, cLast, []⟩ l' = it
  generalize lowerBound ⟨w, d, nextLast cLast, []⟩ l' = stop
  refine (Sim.assert fun _ _ _ => hexists it h fun k => k.cWId = w ∧ k.cDId = d ∧ k.cLast = cLast).bind_eq fun _ =>
    Sim.of_fact fun _ => ?_
  refine (Sim.assert fun _ _ _ => Iff.rfl).bind_eq fun _ => Sim.of_fact fun _ => ?_
  have hfound : ((l.drop it).take (stop - it)).map Prod.snd = ((l'.drop it).take (stop - it)).map Prod.snd := by
    rw [List.map_take, List.map_drop, h, List.map_take, List.map_drop]
  have hsub : ∀ {m : List (Ptr × NameKey)} {e}, e ∈ (m.drop it).take (stop - it) → e ∈ m := fun he =>
    List.mem_of_mem_drop (List.mem_of_mem_take he)
  have hl : ∀ e ∈ (l.drop it).take (stop - it), e ∈ l := fun e he => hsub he
  have hl' : ∀ e ∈ (l'.drop it).take (stop - it), e ∈ l' := fun e he => hsub he
  generalize (l.drop it).take (stop - it) = found at hfound hl ⊢
  generalize (l'.drop it).take (stop - it) = found' at hfound hl' ⊢
  refine Sim.bind_eq (Q := fun _ => P) ?_ fun middle => ?_
  · -- the loop compares last names
    have hloop : ∀ m : List (Ptr × NameKey), (m.tail.foldlM (fun (r : ℕ × ℕ) e => (do
        assert (e.2.cLast = cLast)
        return (if r.2 % 2 = 1 then r.1 + 1 else r.1, r.2 + 1) : Op F (ℕ × ℕ))) (0, 0)) =
          (m.map Prod.snd).tail.foldlM (fun (r : ℕ × ℕ) k => (do
            assert (k.cLast = cLast)
            return (if r.2 % 2 = 1 then r.1 + 1 else r.1, r.2 + 1) : Op F (ℕ × ℕ))) (0, 0) := fun m => by
      rw [← List.map_tail, List.foldlM_map]
    rw [hloop, hloop, hfound]
    refine Sim.foldlM (I := fun _ => P) (fun _ _ _ => ?_) _ _
    refine (Sim.assert fun _ _ _ => Iff.rfl).bind_eq fun _ => Sim.of_fact fun _ => ?_
    exact Sim.pure fun _ _ hP => ⟨rfl, hP⟩
  · refine (Sim.assert fun _ _ _ =>
      hexists middle.1 hfound fun k => k.cWId = w ∧ k.cDId = d ∧ k.cLast = cLast).bind_eq fun _ => Sim.of_fact ?_
    rintro ⟨e, he, -⟩
    obtain ⟨e', he', hkey⟩ := (hexists middle.1 hfound fun k => k = e.2).mp ⟨e, he, rfl⟩
    rw [Option.mem_def] at he he'
    rw [he, he']
    exact Sim.pure fun _ _ hP =>
      ⟨⟨e, hl e (List.mem_of_getElem? he), e', hl' e' (List.mem_of_getElem? he'), rfl, rfl, hkey.symm⟩, hP⟩

end Op

end TpccBench
