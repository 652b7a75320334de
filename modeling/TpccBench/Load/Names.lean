import TpccBench.Load.Ends
import TpccBench.Load.References

/-!
# The names of the loaded customers

The first thousand customers of a district have the first thousand names, one each. Last names are
capital letters, so none is in the way of another when it is looked up. So a last name that is given
to one of the customers is found in every district (`TpccBench.TPCCGenerator.Loads.chooses`).
-/

namespace TpccBench

open Prog

/-! ### Capital letters -/

theorem syllables_capital : ∀ a ∈ syllables, ∀ ch ∈ a, 'A' ≤ ch ∧ ch.toNat < 128 := by
  simp [syllables]

/-- **Last names are capital letters.** -/
theorem makeLastName_capital {num : ℤ} {s : CString 16} (h : makeLastName num = some s) {ch : Char}
    (hch : ch ∈ s.chars) : 'A' ≤ ch ∧ ch.toNat < 128 := by
  obtain ⟨-, a, b, c, ha, hb, hc, hs⟩ := makeLastName_eq_some h
  rw [hs, List.mem_append, List.mem_append] at hch
  rcases hch with hch | hch | hch
  · exact syllables_capital a (List.mem_of_getElem? ha) ch hch
  · exact syllables_capital b (List.mem_of_getElem? hb) ch hch
  · exact syllables_capital c (List.mem_of_getElem? hc) ch hch

/-- A name of capital letters is in nobody's way. -/
theorem Op.NameKey.not_intrudes {k : Op.NameKey} (h : ∀ ch ∈ k.cLast, 'A' ≤ ch) (w d : ℤ) (cLast : List Char) :
    ¬k.Intrudes w d cLast := by
  rintro ⟨-, -, -, ch, rest, heq, hlt⟩
  have hmem : ch ∈ k.cLast := by
    rw [heq]
    exact List.mem_append_right _ List.mem_cons_self
  exact absurd hlt (not_lt.mpr (h ch hmem))

namespace TPCCGenerator

variable {F : Type} [Money F] {g : TPCCGenerator} {warehouses : ℕ} {t : Tables F} {w d c : ℤ}

theorem Loads.named (h : g.Loads warehouses t) : t.Named := by
  obtain ⟨tries, drawn, l, hrun, rfl⟩ := h
  obtain ⟨is, ⟨x, hx, rfl⟩, hins⟩ := (load_emits False.elim : Emits False _ _).of_eq_some hrun
  exact insertAll_named Tables.empty_named hx.keyed hins

/-- **A customer that was loaded.** -/
theorem Loads.makesCustomer (ht : g.Loads warehouses t) {cust : Customer F}
    (hc : t.db.row .customer (w, d, c) = some cust) : MakesCustomer w d c cust := by
  obtain ⟨-, x, hx, hdb⟩ := ht.exists_db
  rw [hdb] at hc
  obtain ⟨hw, hd, hcid⟩ := db_customer_isSome.mp (Option.isSome_of_eq_some hc)
  have hrow : (g.db warehouses x).row .customer (w, d, c) = some (((x.warehouse w).district d).customer c) :=
    if_pos ⟨hw, hd, hcid⟩
  obtain rfl := Option.some.inj (hrow.symm.trans hc)
  exact ((hx.at hw).at hd).customerAt hcid

/-- The customers in name order have last names. -/
theorem Loads.exists_lastName (ht : g.Loads warehouses t) {e : Ptr × Op.NameKey} (he : e ∈ t.names) :
    ∃ num s, makeLastName num = some s ∧ e.2.cLast = s.chars := by
  obtain ⟨hmem, cust, hcell, hkey⟩ := Tables.mem_names.mp he
  obtain ⟨num, hnum, -⟩ := (ht.makesCustomer (ht.exists_db.1.row_of_named hmem hcell)).last
  exact ⟨num, cust.cLast, hnum, by rw [hkey]; rfl⟩

/-- The first customers are in name order, each with its name. -/
theorem Loads.mem_names (ht : g.Loads warehouses t) (hw : w ∈ idsTo warehouses) (hd : d ∈ idsTo g.districtsPerWarehouse)
    {num : ℤ} (hnum : 0 ≤ num ∧ num ≤ min 999 ((g.customersPerDistrict : ℤ) - 1)) {name : CString 16}
    (hname : makeLastName num = some name) : ∃ e ∈ t.names, e.2.Matches w d name.chars := by
  obtain ⟨hs, x, hx, hdb⟩ := ht.exists_db
  have hc : num + 1 ∈ idsTo g.customersPerDistrict := mem_idsTo.mpr (by omega)
  obtain ⟨cust, hcust⟩ : ∃ cust, t.db.row .customer (w, d, num + 1) = some cust := by
    rw [hdb]
    exact Option.isSome_iff_exists.mp (db_customer_isSome.mpr ⟨hw, hd, hc⟩)
  have hmakes := ht.makesCustomer hcust
  obtain ⟨num', hnum', hfirst⟩ := hmakes.last
  have heq : num' = num := by
    have := hfirst (by omega)
    omega
  subst heq
  obtain ⟨p, hlook, hcell⟩ := Tables.lookup_of_row hcust
  obtain ⟨l, hl, hidx⟩ := Option.bind_eq_some_iff.mp hlook
  obtain ⟨key, -, rfl⟩ := Option.map_eq_some_iff.mp hl
  have hid : (cust.cWId, cust.cDId, cust.cId) = (w, d, num' + 1) := hmakes.id
  obtain ⟨hw', hd', -⟩ : cust.cWId = w ∧ cust.cDId = d ∧ cust.cId = num' + 1 := by simpa using hid
  refine ⟨(p, Op.nameKey cust), Tables.mem_names.mpr ⟨(ht.named.linked p).mpr ⟨key, hidx⟩, cust, hcell, rfl⟩, hw', hd', ?_⟩
  exact congrArg CString.chars (Option.some.inj (hnum'.symm.trans hname))

/-- **A last name of the first customers is found**, in every district. -/
theorem Loads.chooses (ht : g.Loads warehouses t) (hw : w ∈ idsTo warehouses) (hd : d ∈ idsTo g.districtsPerWarehouse)
    {num : ℤ} (hnum : 0 ≤ num ∧ num ≤ min 999 ((g.customersPerDistrict : ℤ) - 1)) {name : CString 16}
    (hname : makeLastName num = some name) : ∃ c, (CustomerChoice.lastName name.chars).Chooses w d t c := by
  have hno : ∀ e ∈ t.names, ¬e.2.Intrudes w d name.chars := fun e he => by
    obtain ⟨num', s, hs, hlast⟩ := ht.exists_lastName he
    exact Op.NameKey.not_intrudes (fun ch hch => (makeLastName_capital hs (hlast ▸ hch)).1) w d _
  have hne : Op.matching w d name.chars t.names ≠ [] := by
    obtain ⟨e, he, hmatch⟩ := ht.mem_names hw hd hnum hname
    exact List.ne_nil_of_mem (List.mem_filter.mpr ⟨he, decide_eq_true hmatch⟩)
  obtain ⟨e, he, hrun⟩ := Op.findCustomerByName_of_matches ht.named name.length_le
    (fun ch hch => (makeLastName_capital hname hch).2) hno rfl hne
  obtain ⟨hmem, -⟩ := List.mem_filter.mp (List.mem_of_getElem? he)
  obtain ⟨-, cust, hcell, -⟩ := Tables.mem_names.mp hmem
  exact ⟨cust.cId, e.1, cust, hrun, hcell, rfl⟩

end TPCCGenerator

end TpccBench
