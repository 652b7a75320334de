import TpccBench.Tables.Names

/-!
# The two indexes over the customers

As long as insertions of customers succeed, the tree by id and the set by name lead to the
same customers (`TpccBench.Tables.Named`). They succeed if and only if no two customers of a
district have the same name: the order of the set does not go on to the id.
-/

namespace TpccBench

open Prog Op

variable {F : Type} {t t' : Tables F}

/-- Where none fails, they all end. -/
theorem mapM_eq_filterMap {α β : Type} {f : α → Option β} {l : List α} (h : ∀ a ∈ l, (f a).isSome) :
    l.mapM f = some (l.filterMap f) := by
  induction l with
  | nil => rfl
  | cons a l ih =>
    obtain ⟨ha, hl⟩ := List.forall_mem_cons.mp h
    obtain ⟨b, hb⟩ := Option.isSome_iff_exists.mp ha
    rw [List.mapM_cons, hb, ih hl, List.filterMap_cons_some hb]
    rfl

namespace Tables

/-- The customers in name order, each with what it is compared by. -/
def names (t : Tables F) : List (Ptr × NameKey) :=
  t.customersByName.filterMap fun p => (t.cell .customer p).map fun c => (p, nameKey c)

theorem names_congr (h : t'.customersByName = t.customersByName)
    (hcell : ∀ p ∈ t.customersByName, (t'.cell .customer p).map nameKey = (t.cell .customer p).map nameKey) :
    t'.names = t.names := by
  rw [names, names, h]
  refine List.filterMap_congr fun p hp => ?_
  have hmap : ∀ o : Option (Customer F), (o.map fun c => (p, nameKey c)) = (o.map nameKey).map (Prod.mk p) :=
    fun o => by rw [Option.map_map]; rfl
  rw [hmap, hmap, hcell p hp]

theorem mem_names {e : Ptr × NameKey} : e ∈ t.names ↔
    e.1 ∈ t.customersByName ∧ ∃ c, t.store.cell .customer e.1 = some c ∧ e.2 = nameKey c := by
  rw [names, List.mem_filterMap]
  constructor
  · rintro ⟨p, hp, h⟩
    obtain ⟨c, hc, rfl⟩ := Option.map_eq_some_iff.mp h
    exact ⟨hp, c, hc, rfl⟩
  · rintro ⟨hp, c, hc, he⟩
    exact ⟨e.1, hp, Option.map_eq_some_iff.mpr ⟨c, hc, by rw [← he]⟩⟩

/-- **The indexes agree**: the set leads to the customers that the tree leads to, in
increasing order. -/
structure Named (t : Tables F) : Prop where
  wellFormed : t.WellFormed
  increasing : Increasing Prod.snd t.names
  linked (p : Ptr) : p ∈ t.customersByName ↔ ∃ key, t.store.index (.tree .customers) key = some p

theorem WellFormed.names_fst (h : t.WellFormed) : t.names.map Prod.fst = t.customersByName := by
  have hlive := h.customersByName
  rw [names]
  generalize t.customersByName = l at hlive ⊢
  induction l with
  | nil => rfl
  | cons p l ih =>
    obtain ⟨hp, hl⟩ := List.forall_mem_cons.mp hlive
    obtain ⟨c, hc⟩ := Option.isSome_iff_exists.mp hp
    have hc : t.cell .customer p = some c := hc
    rw [List.filterMap_cons_some (by rw [hc]; rfl), List.map_cons, ih hl]

/-- The tree leads to customers with the key's ids. -/
theorem WellFormed.customer (h : t.WellFormed) {key : ℤ} {p : Ptr}
    (hp : t.store.index (.tree .customers) key = some p) :
    ∃ c : Customer F, t.store.cell .customer p = some c ∧
      makeCustomerKey .checked c.cWId c.cDId c.cId = some key := by
  obtain ⟨ls, ⟨c, hcell, hls⟩, hin, -⟩ := h.linked (.tree .customers, key) p hp
  obtain ⟨key', hkey, rfl⟩ := Option.map_eq_some_iff.mp hls
  obtain rfl : key = key' := by simpa using hin
  exact ⟨c, hcell, hkey⟩

theorem Named.nodup (h : t.Named) : t.customersByName.Nodup := by
  have hnd := h.increasing.nodup
  rw [← h.wellFormed.names_fst]
  refine (List.nodup_map_iff_inj_on hnd.of_map).mpr fun e he e' he' heq => ?_
  obtain ⟨-, c, hc, hk⟩ := mem_names.mp he
  obtain ⟨-, c', hc', hk'⟩ := mem_names.mp he'
  rw [heq] at hc
  obtain rfl := Option.some.inj (hc.symm.trans hc')
  exact Prod.ext heq (hk.trans hk'.symm)

theorem empty_named : (Tables.empty : Tables F).Named where
  wellFormed := empty_wellFormed
  increasing := List.Pairwise.nil
  linked p := by simp [Tables.empty, Tables.store]

end Tables

/-- The customers in name order are all there. -/
theorem Op.byName_apply (h : t.WellFormed) : byName t = some (t.names, t) := by
  have hlive : ∀ p ∈ t.customersByName,
      ((t.cell .customer p).map fun c => (p, nameKey c)).isSome := fun p hp => by
    rw [Option.isSome_map]
    exact h.customersByName p hp
  rw [byName, mapM_eq_filterMap hlive]
  rfl

/-! ### Insertion -/

theorem filterMap_insertIdx {α β : Type} {f : α → Option β} {l : List α} {a : α} {b : β}
    (h : ∀ x ∈ l, (f x).isSome) (ha : f a = some b) (i : ℕ) :
    (l.insertIdx i a).filterMap f = (l.filterMap f).insertIdx i b := by
  induction l generalizing i with
  | nil => cases i <;> simp [ha]
  | cons x l ih =>
    obtain ⟨hx, hl⟩ := List.forall_mem_cons.mp h
    obtain ⟨y, hy⟩ := Option.isSome_iff_exists.mp hx
    cases i with
    | zero => rw [List.insertIdx_zero, List.insertIdx_zero, List.filterMap_cons_some ha]
    | succ i =>
      rw [List.insertIdx_succ_cons, List.filterMap_cons_some hy, List.filterMap_cons_some hy,
        List.insertIdx_succ_cons, ih hl]

/-- An allocated row changes no name. -/
theorem Tables.names_of_inserts {x : Op F Ptr} {k : Kind} {r : Row F k} (hx : Inserts x k r)
    (h : t.WellFormed) {p : Ptr} (hrun : x t = some (p, t')) : t'.names = t.names := by
  obtain ⟨ls, -, -, rfl, hstore, hrest⟩ := hx.of_eq_some hrun
  refine names_congr (congrArg Rest.customersByName hrest) fun q hq => congrArg _ ?_
  have hcell : t'.store.cell .customer q = t.store.cell .customer q := by
    rw [hstore, Store.setIndex_cell, Store.setCell_cell_of_ne]
    rintro ⟨rfl, rfl⟩
    have hlive := h.customersByName _ hq
    rw [t.cell_next] at hlive
    exact absurd hlive (by simp)
  exact hcell

/-- An insertion takes a customer at a new id and a new name. -/
theorem Op.insertCustomer_of_new (h : t.Named) {c : Customer F} {key : ℤ}
    (hkey : makeCustomerKey .checked c.cWId c.cDId c.cId = some key)
    (hid : t.store.index (.tree .customers) key = none) (hname : ∀ e ∈ t.names, e.2 ≠ nameKey c) :
    ∃ t', insertCustomer c t = some ((), t') ∧ t'.Named ∧
      t'.store = (t.store.setCell .customer (t.rest.next .customer) (some c)).setIndex
        [(.tree .customers, key)] (some (t.rest.next .customer)) ∧
      t'.names = t.names.insertIdx (below Prod.snd (nameKey c) t.names) (t.rest.next .customer, nameKey c) := by
  have hls : rowLinks .customer c = some [(.tree .customers, key)] := by rw [rowLinks, hkey]; rfl
  rcases insertCustomerById_inserts c t with ⟨ls, t₁, hls', -, hins, hstore, hrest⟩ | ⟨-, hfail⟩
  · obtain rfl := Option.some.inj (hls.symm.trans hls')
    have hnames : t₁.names = t.names :=
      Tables.names_of_inserts (insertCustomerById_inserts c) h.wellFormed hins
    have hwf : t₁.WellFormed := ((insertCustomerById_inserts c).grows hins).wellFormed h.wellFormed
    set i := below Prod.snd (nameKey c) t.names with hi
    -- what is at the place of the name is greater
    have hassert : ∀ e ∈ t.names[i]?, customerByNameOrdering (nameKey c) e.2 = true := fun e he => by
      rw [hi, getElem?_below h.increasing, Option.mem_def] at he
      obtain ⟨hmem, hle⟩ := List.mem_filter.mp (List.mem_of_head? he)
      rw [customerByNameOrdering_eq, decide_eq_true_iff]
      exact lt_of_le_of_ne (of_decide_eq_true hle) (hname e hmem).symm
    have hrun : insertCustomer c t = some ((),
        { t₁ with customersByName := t₁.customersByName.insertIdx i (t.rest.next .customer) }) := by
      rw [insertCustomer, ← bind_assoc, bind_apply, hins, Option.bind_some, bind_apply,
        byName_apply hwf, Option.bind_some, hnames, lowerBound_eq_below, ← hi, bind_apply, assert,
        if_pos hassert, Option.bind_some]
    have hnames' : Tables.names
        { t₁ with customersByName := t₁.customersByName.insertIdx i (t.rest.next .customer) } =
        t.names.insertIdx i (t.rest.next .customer, nameKey c) := by
      have hcell : t₁.store.cell .customer (t.rest.next .customer) = some c := by
        rw [hstore, Store.setIndex_cell, Store.setCell_cell_same]
      have hnew : ((t₁.cell .customer (t.rest.next .customer)).map fun c => (t.rest.next .customer, nameKey c)) =
          some (t.rest.next .customer, nameKey c) := Option.map_eq_some_iff.mpr ⟨c, hcell, rfl⟩
      rw [← hnames]
      refine filterMap_insertIdx (f := fun p => (t₁.cell .customer p).map fun c => (p, nameKey c))
        (fun p hp => ?_) hnew i
      rw [Option.isSome_map]
      exact hwf.customersByName p hp
    have hlist : t₁.customersByName = t.customersByName := congrArg Rest.customersByName hrest
    have hile : i ≤ t₁.customersByName.length := by
      rw [hi, hlist, ← h.wellFormed.names_fst, List.length_map, below_eq_countP h.increasing]
      exact List.countP_le_length
    refine ⟨_, hrun, ⟨(insertCustomer_grows hrun).wellFormed h.wellFormed, ?_, fun p => ?_⟩, hstore, hnames'⟩
    · rw [hnames']
      exact h.increasing.insertIdx (x := (t.rest.next .customer, nameKey c)) hname
    · have hindex : ∀ k, t₁.store.index (.tree .customers) k =
          if k = key then some (t.rest.next .customer) else t.store.index (.tree .customers) k :=
        fun k => by
          rw [hstore, Store.setIndex_index _ _ _ (Index.tree TreeName.customers, k)]
          simp [Store.setCell]
      change p ∈ t₁.customersByName.insertIdx i (t.rest.next .customer) ↔
        ∃ k, t₁.store.index (.tree .customers) k = some p
      rw [List.mem_insertIdx hile, hlist, h.linked]
      simp only [hindex]
      constructor
      · rintro (rfl | ⟨k, hk⟩)
        · exact ⟨key, if_pos rfl⟩
        · refine ⟨k, (if_neg fun heq => ?_).trans hk⟩
          rw [heq, hid] at hk
          exact absurd hk (by simp)
      · rintro ⟨k, hk⟩
        split at hk
        · exact Or.inl (Option.some.inj hk).symm
        · exact Or.inr ⟨k, hk⟩
  · obtain ⟨l, hl, hne⟩ := hfail _ hls
    rw [List.mem_singleton.mp hl] at hne
    exact absurd hid hne

/-- What an insertion of a customer that has not failed had found. -/
theorem Op.insertCustomer_new (h : t.Named) {c : Customer F}
    (hrun : insertCustomer c t = some ((), t')) :
    ∃ key, makeCustomerKey .checked c.cWId c.cDId c.cId = some key ∧
      t.store.index (.tree .customers) key = none ∧ ∀ e ∈ t.names, e.2 ≠ nameKey c := by
  obtain ⟨x, p, t₁, l, hx, hins, hby, hassert, -⟩ := insertCustomer_eq_some hrun
  obtain ⟨ls, hls, hvac, -, -, -⟩ := hx.of_eq_some hins
  have hnames : t₁.names = t.names := Tables.names_of_inserts hx h.wellFormed hins
  have hwf : t₁.WellFormed := (hx.grows hins).wellFormed h.wellFormed
  obtain ⟨key, hkey, rfl⟩ := Option.map_eq_some_iff.mp hls
  refine ⟨key, hkey, hvac _ (List.mem_singleton_self _), fun e he heq => ?_⟩
  rw [byName_apply hwf, hnames] at hby
  obtain rfl := (Prod.mk.inj (Option.some.inj hby)).1
  rw [lowerBound_eq_below, getElem?_below h.increasing] at hassert
  -- the first customer from the name on would be after it, but this one is not
  have hmem : e ∈ t.names.filter fun a => nameKey c ≤ a.2 :=
    List.mem_filter.mpr ⟨he, decide_eq_true heq.ge⟩
  have hsorted : Increasing Prod.snd (t.names.filter fun a => nameKey c ≤ a.2) :=
    List.Pairwise.filter _ h.increasing
  cases hf : t.names.filter fun a => nameKey c ≤ a.2 with
  | nil =>
    rw [hf] at hmem
    exact absurd hmem List.not_mem_nil
  | cons e' rest =>
    rw [hf] at hmem hsorted hassert
    have hlt : nameKey c < e'.2 := by
      rw [← decide_eq_true_iff (p := nameKey c < e'.2), ← customerByNameOrdering_eq]
      exact hassert e' rfl
    rcases List.mem_cons.mp hmem with rfl | hmem
    · exact absurd hlt heq.not_gt
    · exact absurd (hlt.trans ((List.pairwise_cons.mp hsorted).1 e hmem)) heq.not_gt

/-! ### Filling the tables with customers -/

/-- The ids of a customer. -/
def Customer.ids (c : Customer F) : ℤ × ℤ × ℤ := (c.cWId, c.cDId, c.cId)

/-- The ids are in range. -/
def Customer.Valid (c : Customer F) : Prop :=
  validWarehouse c.cWId ∧ validDistrict c.cDId ∧ validCustomer c.cId

/-- Customers that differ in their ids and in their names. -/
structure Insertable (cs : List (Customer F)) : Prop where
  valid : ∀ c ∈ cs, c.Valid
  ids : (cs.map Customer.ids).Nodup
  names : (cs.map nameKey).Nodup

theorem Insertable.append_left {cs cs' : List (Customer F)} (h : Insertable (cs ++ cs')) : Insertable cs where
  valid c hc := h.valid c (List.mem_append_left _ hc)
  ids := (List.nodup_append.mp (List.map_append ▸ h.ids)).1
  names := (List.nodup_append.mp (List.map_append ▸ h.names)).1

theorem Customer.Valid.key {c : Customer F} (h : c.Valid) :
    ∃ key, makeCustomerKey .checked c.cWId c.cDId c.cId = some key :=
  ⟨_, makeCustomerKey_eq_some.mpr ⟨h, rfl⟩⟩

namespace Tables

/-- The tables hold these customers and no others. -/
structure HasCustomers (t : Tables F) (cs : List (Customer F)) : Prop where
  named : t.Named
  rows (c : Customer F) : c ∈ cs ↔
    ∃ key p, t.store.index (.tree .customers) key = some p ∧ t.store.cell .customer p = some c
  perm : (t.names.map Prod.snd).Perm (cs.map nameKey)

theorem empty_hasCustomers : (Tables.empty : Tables F).HasCustomers [] where
  named := empty_named
  rows c := by simp [Tables.empty, Tables.store]
  perm := List.Perm.nil

variable {cs : List (Customer F)}

/-- A customer is linked under its ids. -/
theorem HasCustomers.index (h : t.HasCustomers cs) {c : Customer F} (hc : c ∈ cs) :
    ∃ key p, makeCustomerKey .checked c.cWId c.cDId c.cId = some key ∧
      t.store.index (.tree .customers) key = some p ∧ t.store.cell .customer p = some c := by
  obtain ⟨key, p, hidx, hcell⟩ := (h.rows c).mp hc
  obtain ⟨c', hcell', hkey⟩ := h.named.wellFormed.customer hidx
  obtain rfl := Option.some.inj (hcell'.symm.trans hcell)
  exact ⟨key, p, hkey, hidx, hcell⟩

theorem HasCustomers.insertable (h : t.HasCustomers cs) : Insertable cs := by
  have hnames : (cs.map nameKey).Nodup := h.perm.nodup_iff.mp h.named.increasing.nodup
  refine ⟨fun c hc => ?_, ?_, hnames⟩
  · obtain ⟨key, p, hkey, -⟩ := h.index hc
    exact (makeCustomerKey_eq_some.mp hkey).1
  · refine (List.nodup_map_iff_inj_on hnames.of_map).mpr fun c hc c' hc' heq => ?_
    obtain ⟨key, p, hkey, hidx, hcell⟩ := h.index hc
    obtain ⟨key', p', hkey', hidx', hcell'⟩ := h.index hc'
    obtain ⟨hw, hd, hi⟩ : c.cWId = c'.cWId ∧ c.cDId = c'.cDId ∧ c.cId = c'.cId := by
      simpa [Customer.ids] using heq
    rw [hw, hd, hi, hkey'] at hkey
    obtain rfl := Option.some.inj hkey
    obtain rfl := Option.some.inj (hidx.symm.trans hidx')
    exact Option.some.inj (hcell.symm.trans hcell')

/-- The customers' names. -/
theorem HasCustomers.mem_names (h : t.HasCustomers cs) {k : NameKey} : (∃ e ∈ t.names, e.2 = k) ↔ k ∈ cs.map nameKey := by
  rw [← h.perm.mem_iff, List.mem_map]

/-- **An insertion** of a customer that differs from those in its ids and its name. -/
theorem HasCustomers.insert (h : t.HasCustomers cs) {c : Customer F} (hc : Insertable (cs ++ [c])) :
    ∃ t', insertCustomer c t = some ((), t') ∧ t'.HasCustomers (cs ++ [c]) := by
  obtain ⟨key, hkey⟩ := (hc.valid c (by simp)).key
  have hid : t.store.index (.tree .customers) key = none := by
    by_contra hne
    obtain ⟨p, hp⟩ := Option.ne_none_iff_exists'.mp hne
    obtain ⟨c', hcell, hkey'⟩ := h.named.wellFormed.customer hp
    have hmem : c' ∈ cs := (h.rows c').mpr ⟨key, p, hp, hcell⟩
    obtain ⟨hw, hd, hi⟩ := makeCustomerKey_inj hkey hkey'
    have hids := hc.ids
    rw [List.map_append, List.nodup_append] at hids
    refine hids.2.2 c'.ids (List.mem_map_of_mem hmem) c.ids (by simp) ?_
    simp [Customer.ids, hw, hd, hi]
  have hname : ∀ e ∈ t.names, e.2 ≠ nameKey c := fun e he heq => by
    have hnames := hc.names
    rw [List.map_append, List.nodup_append] at hnames
    exact hnames.2.2 _ (h.mem_names.mp ⟨e, he, heq⟩) _ (by simp) rfl
  obtain ⟨t', hrun, hnamed, hstore, hnames⟩ := insertCustomer_of_new h.named hkey hid hname
  refine ⟨t', hrun, hnamed, fun c' => ?_, ?_⟩
  · have hindex : ∀ k, t'.store.index (.tree .customers) k =
        if k = key then some (t.rest.next .customer) else t.store.index (.tree .customers) k :=
      fun k => by
        rw [hstore, Store.setIndex_index _ _ _ (Index.tree TreeName.customers, k)]
        simp [Store.setCell]
    have hsame : t'.store.cell .customer (t.rest.next .customer) = some c := by
      rw [hstore, Store.setIndex_cell, Store.setCell_cell_same]
    have hcell : ∀ p, p ≠ t.rest.next .customer →
        t'.store.cell .customer p = t.store.cell .customer p := fun p hp => by
      rw [hstore, Store.setIndex_cell, Store.setCell_cell_of_ne _ _ fun hh => hp hh.2]
    rw [List.mem_append, List.mem_singleton, h.rows]
    constructor
    · rintro (⟨k, p, hk, hp⟩ | rfl)
      · refine ⟨k, p, ?_, ?_⟩
        · rw [hindex, if_neg fun heq => ?_, hk]
          rw [heq, hid] at hk
          exact absurd hk (by simp)
        · rw [hcell p fun heq => ?_, hp]
          rw [heq, t.cell_next] at hp
          exact absurd hp (by simp)
      · exact ⟨key, _, by rw [hindex, if_pos rfl], hsame⟩
    · rintro ⟨k, p, hk, hp⟩
      rw [hindex] at hk
      split at hk
      · obtain rfl := Option.some.inj hk
        exact Or.inr (Option.some.inj (hp.symm.trans hsame))
      · refine Or.inl ⟨k, p, hk, ?_⟩
        rw [← hcell p fun heq => ?_, hp]
        have hlive := h.named.wellFormed.customersByName p ((h.named.linked p).mpr ⟨k, hk⟩)
        rw [heq, t.cell_next] at hlive
        exact absurd hlive (by simp)
  · have hle : below Prod.snd (nameKey c) t.names ≤ t.names.length := by
      rw [below_eq_countP h.named.increasing]
      exact List.countP_le_length
    rw [hnames, List.map_append]
    refine ((List.perm_insertIdx _ _ hle).map _).trans ?_
    refine (List.Perm.cons _ h.perm).trans ?_
    exact (List.perm_append_singleton _ _).symm

/-- What an insertion that has not failed has inserted. -/
theorem HasCustomers.inserted (h : t.HasCustomers cs) {c : Customer F} (hrun : insertCustomer c t = some ((), t')) :
    Insertable (cs ++ [c]) ∧ t'.HasCustomers (cs ++ [c]) := by
  obtain ⟨key, hkey, hid, hname⟩ := insertCustomer_new h.named hrun
  have hc : Insertable (cs ++ [c]) := by
    have hcs := h.insertable
    refine ⟨fun c' hc' => ?_, ?_, ?_⟩
    · rcases List.mem_append.mp hc' with hc' | hc'
      · exact hcs.valid c' hc'
      · rw [List.mem_singleton.mp hc']
        exact (makeCustomerKey_eq_some.mp hkey).1
    · rw [List.map_append, List.nodup_append]
      refine ⟨hcs.ids, List.nodup_singleton _, fun i hi i' hi' heq => ?_⟩
      obtain ⟨c', hc', rfl⟩ := List.mem_map.mp hi
      obtain ⟨key', p, hkey', hp, -⟩ := h.index hc'
      obtain ⟨hw, hd, hcid⟩ : c'.cWId = c.cWId ∧ c'.cDId = c.cDId ∧ c'.cId = c.cId := by
        simpa [Customer.ids] using heq.trans (List.mem_singleton.mp hi')
      rw [hw, hd, hcid, hkey] at hkey'
      rw [← Option.some.inj hkey', hid] at hp
      exact absurd hp (by simp)
    · rw [List.map_append, List.nodup_append]
      refine ⟨hcs.names, List.nodup_singleton _, fun k hk k' hk' heq => ?_⟩
      obtain ⟨e, he, hek⟩ := h.mem_names.mpr hk
      exact hname e he (hek.trans (heq.trans (List.mem_singleton.mp hk')))
  obtain ⟨t₁, hrun₁, hholds⟩ := h.insert hc
  obtain rfl := (Prod.mk.inj (Option.some.inj (hrun₁.symm.trans hrun))).2
  exact ⟨hc, hholds⟩

/-- **Insertions** of customers succeed where the ids and the names differ. -/
theorem HasCustomers.insertAll (h : t.HasCustomers cs) {cs' : List (Customer F)} (hcs : Insertable (cs ++ cs')) :
    ∃ t', insertAll (cs'.map .customer) t = some ((), t') := by
  induction cs' generalizing t cs with
  | nil => exact ⟨t, rfl⟩
  | cons c cs' ih =>
    rw [← List.singleton_append, ← List.append_assoc] at hcs
    obtain ⟨t₁, hrun, h₁⟩ := h.insert hcs.append_left
    obtain ⟨t', hruns⟩ := ih h₁ hcs
    refine ⟨t', ?_⟩
    rw [TpccBench.insertAll, List.map_cons, forM_cons_apply, Insertion.exec, hrun]
    exact hruns

/-- What the tables hold after insertions that have not failed. -/
theorem HasCustomers.insertedAll (h : t.HasCustomers cs) {cs' : List (Customer F)}
    (hrun : TpccBench.insertAll (cs'.map .customer) t = some ((), t')) : t'.HasCustomers (cs ++ cs') := by
  induction cs' generalizing t cs with
  | nil =>
    obtain rfl := (Prod.mk.inj (Option.some.inj hrun)).2
    rwa [List.append_nil]
  | cons c cs' ih =>
    rw [TpccBench.insertAll, List.map_cons, forM_cons_apply, Insertion.exec] at hrun
    obtain ⟨⟨_, t₁⟩, hone, hrun⟩ := Option.bind_eq_some_iff.mp hrun
    rw [← List.singleton_append, ← List.append_assoc]
    exact ih (h.inserted hone).2 hrun

/-- **The indexes agree**: each of the customers is found by its id, and what is found by id
is in the set by name, once. -/
structure IndexesAgree (t : Tables F) (cs : List (Customer F)) : Prop where
  byId : ∀ c ∈ cs, ∃ p, findCustomer c.cWId c.cDId c.cId t = some (some p, t) ∧
    t.cell .customer p = some c
  once : ∀ key p, (t.tree .customers).find key = some p → t.customersByName.count p = 1
  linked : ∀ p ∈ t.customersByName, ∃ key, (t.tree .customers).find key = some p

theorem HasCustomers.indexesAgree (h : t.HasCustomers cs) : t.IndexesAgree cs where
  byId c hc := by
    obtain ⟨key, p, hkey, hidx, hcell⟩ := h.index hc
    refine ⟨p, ?_, hcell⟩
    rw [findCustomer, bind_apply, lift_apply, hkey, Option.map_some, Option.bind_some, findIn]
    exact congrArg (fun o => some (o, t)) hidx
  once key p hp := List.count_eq_one_of_mem h.named.nodup ((h.named.linked p).mpr ⟨key, hp⟩)
  linked p hp := (h.named.linked p).mp hp

end Tables

/-- **Insertions of customers** with distinct ids succeed, with both indexes in agreement
afterwards, if and only if no two of the customers have their names in common. -/
theorem insertCustomers_agree_iff {cs : List (Customer F)} (hvalid : ∀ c ∈ cs, c.Valid)
    (hids : (cs.map Customer.ids).Nodup) :
    (∃ t, insertAll (cs.map .customer) Tables.empty = some ((), t) ∧ t.IndexesAgree cs) ↔
      (cs.map nameKey).Nodup := by
  constructor
  · rintro ⟨t, hrun, -⟩
    exact (Tables.empty_hasCustomers.insertedAll hrun).insertable.names
  · intro hnames
    have hcs : Insertable ([] ++ cs) := ⟨hvalid, hids, hnames⟩
    obtain ⟨t, hrun⟩ := Tables.empty_hasCustomers.insertAll hcs
    exact ⟨t, hrun, (Tables.empty_hasCustomers.insertedAll hrun).indexesAgree⟩

/-- A customer of warehouse and district 1. -/
def smallCustomer (cId : ℤ) (cLast : CString 16) (cFirst : CString 10) : Customer ℚ :=
  ⟨cId, 1, 1, 0, 0, 0, 0, 0, 0, cFirst, .empty, cLast, .zero, .empty, .empty, .empty, .empty⟩

/-- Two customers with one last name. -/
def siblings : List (Customer ℚ) :=
  [smallCustomer 1 ⟨['D', 'E'], by decide⟩ ⟨['A'], by decide⟩,
    smallCustomer 2 ⟨['D', 'E'], by decide⟩ ⟨['B'], by decide⟩]

/-- Two customers with the same name. -/
def namesakes : List (Customer ℚ) :=
  [smallCustomer 1 ⟨['D', 'E'], by decide⟩ ⟨['A'], by decide⟩,
    smallCustomer 2 ⟨['D', 'E'], by decide⟩ ⟨['A'], by decide⟩]

theorem siblings_valid : ∀ c ∈ siblings, c.Valid := by
  simp [siblings, smallCustomer, Customer.Valid, validWarehouse, validDistrict, validCustomer,
    Warehouse.maxWarehouseId, District.numPerWarehouse, Customer.numPerDistrict]

theorem namesakes_valid : ∀ c ∈ namesakes, c.Valid := by
  simp [namesakes, smallCustomer, Customer.Valid, validWarehouse, validDistrict, validCustomer,
    Warehouse.maxWarehouseId, District.numPerWarehouse, Customer.numPerDistrict]

theorem siblings_names : (siblings.map nameKey).Nodup := by decide

theorem siblings_agree : ∃ t, insertAll (siblings.map .customer) Tables.empty = some ((), t) ∧
    t.IndexesAgree siblings :=
  (insertCustomers_agree_iff siblings_valid (by decide)).mpr siblings_names

/-- Two customers with the same name make the second insertion fail. -/
theorem namesakes_fail : (∀ c ∈ namesakes, c.Valid) ∧ (namesakes.map Customer.ids).Nodup ∧
    ¬∃ t, insertAll (namesakes.map .customer) Tables.empty = some ((), t) := by
  refine ⟨namesakes_valid, by decide, ?_⟩
  rintro ⟨t, h⟩
  have hnone : (insertAll (namesakes.map .customer) Tables.empty).isNone := by decide +kernel
  rw [h] at hnone
  exact absurd hnone (by simp)

/-! ### Lookup by last name -/

namespace Op

variable {w d : ℤ} {cLast : List Char}

/-- Where the two iterators are: one goes through all customers but the first, the other is
half as far. -/
theorem middle_loop (l : List (Ptr × NameKey)) (i : ℕ) (h : ∀ e ∈ l, e.2.cLast = cLast) :
    (l.foldlM (fun (r : ℕ × ℕ) e => do
      assert (e.2.cLast = cLast)
      return (if r.2 % 2 = 1 then r.1 + 1 else r.1, r.2 + 1)) (i / 2, i) : Op F (ℕ × ℕ)) t =
      some (((i + l.length) / 2, i + l.length), t) := by
  induction l generalizing i with
  | nil => rfl
  | cons e l ih =>
    obtain ⟨he, hl⟩ := List.forall_mem_cons.mp h
    have hstep : (if i % 2 = 1 then i / 2 + 1 else i / 2) = (i + 1) / 2 := by split <;> omega
    rw [List.foldlM_cons, bind_apply, bind_apply, assert, if_pos he, Option.bind_some, pure_apply,
      Option.bind_some]
    dsimp only
    rw [hstep, ih (i + 1) hl, List.length_cons, Nat.add_assoc, Nat.add_comm 1]

/-- The loop ends only where the last names are all equal. -/
theorem middle_loop_eq_some {l : List (Ptr × NameKey)} {r r' : ℕ × ℕ}
    (h : (l.foldlM (fun (r : ℕ × ℕ) e => do
      assert (e.2.cLast = cLast)
      return (if r.2 % 2 = 1 then r.1 + 1 else r.1, r.2 + 1)) r : Op F (ℕ × ℕ)) t = some (r', t')) :
    ∀ e ∈ l, e.2.cLast = cLast := by
  induction l generalizing r t with
  | nil => simp
  | cons e l ih =>
    rw [List.foldlM_cons] at h
    obtain ⟨r₁, t₁, hone, hrest⟩ := bind_eq_some h
    obtain ⟨_, t₂, hassert, -⟩ := bind_eq_some hone
    exact List.forall_mem_cons.mpr ⟨(assert_eq_some hassert).1, ih hrest⟩

/-- The customers with the name. -/
def matching (w d : ℤ) (cLast : List Char) (l : List (Ptr × NameKey)) : List (Ptr × NameKey) :=
  l.filter fun e => e.2.Matches w d cLast

/-- What the two searches find. -/
structure Found (w d : ℤ) (cLast : List Char) (l : List (Ptr × NameKey)) (it stop : ℕ)
    (found : List (Ptr × NameKey)) : Prop where
  le : it ≤ stop
  eq : (l.drop it).take (stop - it) = found
  head : found ≠ [] → l[it]? = found.head?
  eq_matching : (∀ e ∈ l, ¬e.2.Intrudes w d cLast) → found = matching w d cLast l
  mem_of_intrudes {e : Ptr × NameKey} : e ∈ l → e.2.Intrudes w d cLast → e ∈ found

theorem found (h : t.Named) (hlen : cLast.length ≤ 16) (hascii : ∀ ch ∈ cLast, ch.toNat < 128) :
    ∃ it stop l, lowerBound ⟨w, d, cLast, []⟩ t.names = it ∧
      lowerBound ⟨w, d, nextLast cLast, []⟩ t.names = stop ∧ Found w d cLast t.names it stop l := by
  have hle : (⟨w, d, cLast, []⟩ : NameKey) ≤ ⟨w, d, nextLast cLast, []⟩ :=
    ((NameKey.between_iff (w := w) (d := d) hlen hascii (k := ⟨w, d, cLast, []⟩) hlen).mpr
      (Or.inl ⟨rfl, rfl, rfl⟩)).2.le
  have heq := take_drop_below h.increasing hle
  have hbetween : ∀ e ∈ t.names, ((⟨w, d, cLast, []⟩ : NameKey) ≤ e.2 ∧ e.2 < ⟨w, d, nextLast cLast, []⟩ ↔
      e.2.Matches w d cLast ∨ e.2.Intrudes w d cLast) := fun e he => by
    obtain ⟨-, c, -, hc⟩ := Tables.mem_names.mp he
    have hk : e.2.cLast.length ≤ 16 := by
      rw [hc]
      exact c.cLast.length_le
    rw [← NameKey.between_iff hlen hascii hk, not_lt]
  refine ⟨_, _, _, lowerBound_eq_below _ _, lowerBound_eq_below _ _, below_le h.increasing hle, heq, ?_, ?_, ?_⟩
  · intro hne
    rw [← heq] at hne ⊢
    rw [List.head?_take, List.head?_drop, if_neg fun h0 => hne (by rw [h0, List.take_zero])]
  · intro hno
    refine List.filter_congr fun e he => decide_eq_decide.mpr ?_
    rw [hbetween e he, or_iff_left (hno e he)]
  · intro e he hintr
    exact List.mem_filter.mpr ⟨he, decide_eq_true ((hbetween e he).mpr (Or.inr hintr))⟩

/-- **The median**: a last name that somebody has, with no other in its way. -/
theorem findCustomerByName_of_matches (h : t.Named) (hlen : cLast.length ≤ 16)
    (hascii : ∀ ch ∈ cLast, ch.toNat < 128) (hno : ∀ e ∈ t.names, ¬e.2.Intrudes w d cLast)
    {m : List (Ptr × NameKey)} (hm : matching w d cLast t.names = m) (hne : m ≠ []) :
    ∃ e, m[(m.length - 1) / 2]? = some e ∧ findCustomerByName w d cLast t = some (some e.1, t) := by
  obtain ⟨it, stop, l, hit, hstop, hf⟩ := found (w := w) (d := d) h hlen hascii
  obtain rfl : l = m := (hf.eq_matching hno).trans hm
  have hall : ∀ e ∈ l, e.2.cWId = w ∧ e.2.cDId = d ∧ e.2.cLast = cLast := fun e he => by
    rw [← hm] at he
    exact of_decide_eq_true (List.mem_filter.mp he).2
  have hpos : 0 < l.length := List.length_pos_iff.mpr hne
  have hmid : (l.length - 1) / 2 < l.length := by omega
  refine ⟨l[(l.length - 1) / 2], List.getElem?_eq_getElem hmid, ?_⟩
  have hfirst : ∃ e ∈ t.names[it]?, e.2.cWId = w ∧ e.2.cDId = d ∧ e.2.cLast = cLast := by
    rw [hf.head hne]
    exact ⟨_, List.head?_eq_some_head hne, hall _ (List.head_mem hne)⟩
  have htail : ∀ e ∈ l.tail, e.2.cLast = cLast := fun e he => (hall e (List.mem_of_mem_tail he)).2.2
  have hloop := @middle_loop F t cLast l.tail 0 htail
  rw [List.length_tail, Nat.zero_add] at hloop
  have hlast : ∃ e ∈ l[(l.length - 1) / 2]?, e.2.cWId = w ∧ e.2.cDId = d ∧ e.2.cLast = cLast := by
    rw [List.getElem?_eq_getElem hmid]
    exact ⟨_, rfl, hall _ (List.getElem_mem hmid)⟩
  simp only [findCustomerByName, bind_apply, assert, if_pos hlen, Option.bind_some,
    byName_apply h.wellFormed, hit, if_pos hfirst, hstop, if_pos hf.le, hf.eq]
  erw [hloop]
  simp only [Option.bind_some, if_pos hlast, pure_apply]
  rw [List.getElem?_eq_getElem hmid]
  rfl

/-- A longer name in the way makes an assertion fail. -/
theorem findCustomerByName_of_intrudes (h : t.Named) (hlen : cLast.length ≤ 16)
    (hascii : ∀ ch ∈ cLast, ch.toNat < 128) {e : Ptr × NameKey} (he : e ∈ t.names)
    (hintr : e.2.Intrudes w d cLast) : findCustomerByName w d cLast t = none := by
  obtain ⟨it, stop, l, hit, hstop, hf⟩ := found (w := w) (d := d) h hlen hascii
  have hmem : e ∈ l := hf.mem_of_intrudes he hintr
  have hlast : e.2.cLast ≠ cLast := by
    obtain ⟨-, -, -, ch, rest, heq, -⟩ := hintr
    intro hsame
    rw [hsame] at heq
    simpa using congrArg List.length heq
  cases hrun : findCustomerByName w d cLast t with
  | none => rfl
  | some r =>
    exfalso
    obtain ⟨_, t₁, hlen', hrun⟩ := bind_eq_some hrun
    obtain rfl := (assert_eq_some hlen').2
    obtain ⟨l', t₂, hby, hrun⟩ := bind_eq_some hrun
    rw [byName_apply h.wellFormed] at hby
    obtain ⟨rfl, rfl⟩ := Prod.mk.inj (Option.some.inj hby)
    obtain ⟨_, t₃, hfirst, hrun⟩ := bind_eq_some hrun
    obtain rfl := (assert_eq_some hfirst).2
    have hfirst := (assert_eq_some hfirst).1
    obtain ⟨_, t₄, hle, hrun⟩ := bind_eq_some hrun
    obtain rfl := (assert_eq_some hle).2
    obtain ⟨_, t₅, hloop, -⟩ := bind_eq_some hrun
    have htail := middle_loop_eq_some hloop
    rw [hit] at hfirst
    rw [hit, hstop, hf.eq] at htail
    cases l with
    | nil => exact absurd hmem List.not_mem_nil
    | cons e' l =>
      rcases List.mem_cons.mp hmem with rfl | hmem
      · rw [hf.head (List.cons_ne_nil _ _)] at hfirst
        obtain ⟨e', he', hfirst⟩ := hfirst
        obtain rfl := Option.some.inj he'
        exact hlast hfirst.2.2
      · exact hlast (htail e hmem)

end Op

/-! ### The median of the customers -/

/-- The customer with the rounded middle first name among those with a last name, counted from
one. -/
def Customer.IsMedian (cs : List (Customer F)) (w d : ℤ) (cLast : List Char) (c : Customer F) : Prop :=
  c ∈ cs ∧ (nameKey c).Matches w d cLast ∧
    cs.countP (fun c' => (nameKey c').Matches w d cLast ∧ c'.cFirst.chars < c.cFirst.chars) + 1 =
      (cs.countP (fun c' => (nameKey c').Matches w d cLast) + 1) / 2

namespace Tables.HasCustomers

variable {cs : List (Customer F)} {w d : ℤ} {cLast : List Char}

/-- Customers are counted by their names. -/
theorem countP (h : t.HasCustomers cs) (P : NameKey → Bool) :
    (cs.countP fun c => P (nameKey c)) = t.names.countP fun e => P e.2 := by
  have hperm := h.perm.countP_eq P
  rw [List.countP_map, List.countP_map] at hperm
  exact hperm.symm

theorem isMedian (h : t.HasCustomers cs) {e : Ptr × NameKey} {m : List (Ptr × NameKey)}
    (hm : matching w d cLast t.names = m) (he : m[(m.length - 1) / 2]? = some e) :
    ∃ c, t.cell .customer e.1 = some c ∧ Customer.IsMedian cs w d cLast c := by
  obtain ⟨hlt, rfl⟩ := List.getElem?_eq_some_iff.mp he
  set e := m[(m.length - 1) / 2] with he'
  have hsorted : Increasing Prod.snd m := hm ▸ List.Pairwise.filter _ h.named.increasing
  have hmem : e ∈ m := List.getElem_mem hlt
  obtain ⟨hin, hmatch⟩ := List.mem_filter.mp (hm ▸ hmem)
  have hmatch : e.2.Matches w d cLast := of_decide_eq_true hmatch
  obtain ⟨hlist, c, hcell, hc⟩ := Tables.mem_names.mp hin
  obtain ⟨key, hkey⟩ := (h.named.linked e.1).mp hlist
  refine ⟨c, hcell, (h.rows c).mpr ⟨key, e.1, hkey, hcell⟩, hc ▸ hmatch, ?_⟩
  have hcount : cs.countP (fun c' => (nameKey c').Matches w d cLast) = m.length := by
    rw [h.countP fun k => k.Matches w d cLast, List.countP_eq_length_filter, ← hm]
    rfl
  -- among equal last names, the order is that of the first names
  have hbefore : cs.countP (fun c' => (nameKey c').Matches w d cLast ∧ c'.cFirst.chars < c.cFirst.chars) =
      (m.length - 1) / 2 := by
    refine (h.countP fun k => k.Matches w d cLast ∧ k.cFirst < c.cFirst.chars).trans ?_
    have hfirst : ∀ a ∈ m, (a.2.cFirst < c.cFirst.chars ↔ a.2 < e.2) := fun a ha => by
      obtain ⟨hw, hd, hl⟩ : a.2.Matches w d cLast := by
        rw [← hm] at ha
        exact of_decide_eq_true (List.mem_filter.mp ha).2
      obtain ⟨hw', hd', hl'⟩ := hmatch
      have hcf : e.2.cFirst = c.cFirst.chars := congrArg NameKey.cFirst hc
      simp [NameKey.lt_iff, hw, hd, hl, hw', hd', hl', hcf]
    calc t.names.countP (fun a => a.2.Matches w d cLast ∧ a.2.cFirst < c.cFirst.chars)
        = m.countP (fun a => a.2.cFirst < c.cFirst.chars) := by
          rw [← hm, matching, List.countP_filter]
          refine List.countP_congr fun a _ => ?_
          simp [and_comm]
      _ = m.countP (fun a => a.2 < e.2) :=
          List.countP_congr fun a ha => by simpa using hfirst a ha
      _ = below Prod.snd e.2 m := (below_eq_countP hsorted _).symm
      _ = (m.length - 1) / 2 := hsorted.below_getElem hlt
  rw [hcount, hbefore]
  have hpos : 0 < m.length := List.length_pos_of_mem hmem
  omega

end Tables.HasCustomers

/-- **Lookup by last name** finds the median of the customers with that name, if and only if
none of their district has a longer name that comes before the name with an `A` appended. -/
theorem findCustomerByName_median_iff {cs : List (Customer F)}
    (hload : insertAll (cs.map .customer) Tables.empty = some ((), t))
    (hascii : ∀ c ∈ cs, ∀ ch ∈ c.cLast.chars, ch.toNat < 128) {w d : ℤ} {cLast : List Char}
    (hmatch : ∃ c ∈ cs, (nameKey c).Matches w d cLast) :
    (∃ p c, findCustomerByName w d cLast t = some (some p, t) ∧ t.cell .customer p = some c ∧
      Customer.IsMedian cs w d cLast c) ↔ ∀ c ∈ cs, ¬(nameKey c).Intrudes w d cLast := by
  have h : t.HasCustomers cs := Tables.empty_hasCustomers.insertedAll hload
  obtain ⟨c₀, hc₀, hw, hd, hl⟩ := hmatch
  have hl : c₀.cLast.chars = cLast := hl
  have hlen : cLast.length ≤ 16 := hl ▸ c₀.cLast.length_le
  have hchars : ∀ ch ∈ cLast, ch.toNat < 128 := hl ▸ hascii c₀ hc₀
  constructor
  · rintro ⟨p, c, hrun, -⟩ c' hc' hintr
    obtain ⟨e, he, hek⟩ := h.mem_names.mpr (List.mem_map_of_mem hc')
    rw [findCustomerByName_of_intrudes h.named hlen hchars he (hek ▸ hintr)] at hrun
    exact absurd hrun (by simp)
  · intro hno
    have hnames : ∀ e ∈ t.names, ¬e.2.Intrudes w d cLast := fun e he hintr => by
      obtain ⟨c, hc, hk⟩ := List.mem_map.mp (h.mem_names.mp ⟨e, he, rfl⟩)
      exact hno c hc (hk ▸ hintr)
    have hne : matching w d cLast t.names ≠ [] := by
      obtain ⟨e, he, hek⟩ := h.mem_names.mpr (List.mem_map_of_mem hc₀)
      refine List.ne_nil_of_mem (List.mem_filter.mpr ⟨he, decide_eq_true ?_⟩)
      rw [hek]
      exact ⟨hw, hd, hl⟩
    obtain ⟨e, he, hrun⟩ := findCustomerByName_of_matches h.named hlen hchars hnames rfl hne
    obtain ⟨c, hcell, hmed⟩ := h.isMedian rfl he
    exact ⟨e.1, c, hrun, hcell, hmed⟩

theorem siblings_load : (insertAll (siblings.map .customer) Tables.empty).isSome := by decide +kernel

theorem siblings_median : ∃ t : Tables ℚ, ∃ p c,
    findCustomerByName 1 1 ['D', 'E'] t = some (some p, t) ∧ t.cell .customer p = some c ∧
      Customer.IsMedian siblings 1 1 ['D', 'E'] c := by
  obtain ⟨⟨_, t⟩, hload⟩ := Option.isSome_iff_exists.mp siblings_load
  have hascii : siblings.all (fun c => c.cLast.chars.all fun ch => ch.toNat < 128) = true := by decide
  refine ⟨t, (findCustomerByName_median_iff hload ?_ ?_).mpr ?_⟩
  · simpa [List.all_eq_true] using hascii
  · exact ⟨smallCustomer 1 ⟨['D', 'E'], by decide⟩ ⟨['A'], by decide⟩, by simp [siblings], by decide⟩
  · rintro c hc ⟨-, -, -, ch, rest, heq, -⟩
    have hl : (nameKey c).cLast = ['D', 'E'] := by
      simp only [siblings, List.mem_cons, List.not_mem_nil, or_false] at hc
      rcases hc with rfl | rfl <;> rfl
    simp [hl] at heq

/-- A customer, and one whose last name goes on with a space. -/
def deAndDeVries : List (Customer ℚ) :=
  [smallCustomer 1 ⟨['D', 'E'], by decide⟩ ⟨['A'], by decide⟩,
    smallCustomer 2 ⟨['D', 'E', ' ', 'V'], by decide⟩ ⟨['B'], by decide⟩]

theorem deAndDeVries_load : (insertAll (deAndDeVries.map .customer) Tables.empty).isSome := by
  decide +kernel

/-- The longer name makes the lookup of the other fail. -/
theorem deAndDeVries_fails : ∃ t : Tables ℚ,
    insertAll (deAndDeVries.map .customer) Tables.empty = some ((), t) ∧
      (∃ c ∈ deAndDeVries, (nameKey c).Matches 1 1 ['D', 'E']) ∧
      findCustomerByName 1 1 ['D', 'E'] t = none := by
  obtain ⟨⟨_, t⟩, hload⟩ := Option.isSome_iff_exists.mp deAndDeVries_load
  have hrun : ((insertAll (deAndDeVries.map .customer) Tables.empty).bind fun r =>
      findCustomerByName 1 1 ['D', 'E'] r.2).isNone := by decide +kernel
  rw [hload] at hrun
  refine ⟨t, hload, ?_, Option.isNone_iff_eq_none.mp hrun⟩
  exact ⟨smallCustomer 1 ⟨['D', 'E'], by decide⟩ ⟨['A'], by decide⟩, by simp [deAndDeVries], by decide⟩

end TpccBench
