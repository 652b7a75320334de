import TpccBench.Lib.Ownership
import TpccBench.Tables.ByName
import TpccBench.Tables.Destructor

/-!
# The life of a row

A row is allocated by an insertion or a transaction. It is freed by whoever has it: the tables, or an undo
buffer that holds a new-order row which a delivery has taken out. `TpccBench.Accounted` says that each row has
one owner, and each step keeps that, whatever is committed, undone or freed, and in which order.
So when the buffers are freed and `~TPCCTables` has run, nothing is left, and nothing was freed twice
(`TpccBench.life_freed`).
-/

namespace TpccBench

open Prog

variable {F : Type} {t t' : Tables F} {u : TPCCUndo F} {out : List Ptr} {k : Kind} {p : Ptr} {n : TreeName}

/-- The rows that the indexes do not lead to: the history, and the new-order rows that are out. -/
def Tables.roots (t : Tables F) (out : List Ptr) : List (Kind × ℕ) :=
  t.history.map (Prod.mk .history) ++ out.map (Prod.mk .newOrder)

/-- **Every row is accounted for**: it is in an index, in the history, or among the new-order rows that buffers
have taken out. The customers in name order are the ones in the index. -/
structure Accounted (t : Tables F) (out : List Ptr) : Prop where
  owned : t.store.Owned (schema F) (t.roots out)
  nodup : t.customersByName.Nodup
  named (p : Ptr) : p ∈ t.customersByName ↔ ∃ key, t.store.index (.tree .customers) key = some p

theorem rowLinks_ne_nil (hk : k ≠ .history) {r : Row F k} {ls : List (Index × ℤ)} (h : rowLinks k r = some ls) :
    ls ≠ [] := by
  rintro rfl
  cases k with
  | history => exact hk rfl
  | warehouse => exact absurd (Option.some.inj h) (by simp)
  | order =>
    obtain ⟨_, -, h⟩ := Option.bind_eq_some_iff.mp h
    obtain ⟨_, -, h⟩ := Option.map_eq_some_iff.mp h
    exact absurd h (by simp)
  | district | stock | customer | orderLine | newOrder =>
    obtain ⟨_, -, h⟩ := Option.map_eq_some_iff.mp h
    exact absurd h (by simp)

namespace Accounted

theorem empty : Accounted (Tables.empty : Tables F) [] where
  owned :=
    { linked := Tables.empty_wellFormed.linked
      nodup := List.nodup_nil
      live := fun he => absurd he List.not_mem_nil
      apart := fun he => absurd he List.not_mem_nil
      owner := fun he => absurd he (by simp [Tables.empty, Tables.store, Tables.cell, Memory.empty]) }
  nodup := List.nodup_nil
  named p := by simp [Tables.empty, Tables.store, Tree.find_empty]

theorem congr (h : Accounted t out) (hs : t'.store = t.store) (hr : t'.rest = t.rest) : Accounted t' out := by
  have hhist : t'.history = t.history := congrArg Rest.history hr
  have hname : t'.customersByName = t.customersByName := congrArg Rest.customersByName hr
  refine ⟨?_, by rw [hname]; exact h.nodup, fun p => by rw [hname, hs]; exact h.named p⟩
  rw [hs, Tables.roots, hhist]
  exact h.owned

theorem perm (h : Accounted t out) {out' : List Ptr} (hp : out.Perm out') : Accounted t out' :=
  ⟨h.owned.perm ((hp.map _).append_left _), h.nodup, h.named⟩

/-- What is out lives, and comes once. -/
theorem out_nodup (h : Accounted t out) : out.Nodup :=
  (List.nodup_append.mp h.owned.nodup).2.1.of_map

theorem out_live (h : Accounted t out) (hp : p ∈ out) : (t.store.cell .newOrder p).isSome :=
  h.owned.live (e := (.newOrder, p)) (List.mem_append_right _ (List.mem_map_of_mem hp))

theorem history_nodup (h : Accounted t out) : t.history.Nodup :=
  (List.nodup_append.mp h.owned.nodup).1.of_map

theorem history_live (h : Accounted t out) (hp : p ∈ t.history) : (t.store.cell .history p).isSome :=
  h.owned.live (e := (.history, p)) (List.mem_append_left _ (List.mem_map_of_mem hp))

theorem wellFormed (h : Accounted t out) : t.WellFormed where
  linked := h.owned.linked
  customersByName p hp := by
    obtain ⟨key, hkey⟩ := (h.named p).mp hp
    exact h.owned.linked.isSome_of_reaches (e := (.customer, p)) ⟨(.tree .customers, key), rfl, hkey⟩
  history _ := h.history_live

/-! ### Single rows -/

/-- **A row is written.** -/
theorem assign (h : Accounted t out) {r : Row F k} (hl : ∀ r', t.store.cell k p = some r' → rowLinks k r = rowLinks k r')
    (hrun : Op.assign k (some p) r t = some ((), t')) : Accounted t' out := by
  cases hr : t.store.cell k p with
  | none =>
    rw [Op.assign_of_dead t hr] at hrun
    exact absurd hrun (by simp)
  | some r' =>
    obtain ⟨t₁, hrun', hstore, hrest⟩ := Op.assign_of_live t (Option.isSome_of_eq_some hr) r
    obtain rfl := (Prod.mk.inj (Option.some.inj (hrun'.symm.trans hrun))).2
    have hhist : t₁.history = t.history := congrArg Rest.history hrest
    have hname : t₁.customersByName = t.customersByName := congrArg Rest.customersByName hrest
    refine ⟨?_, by rw [hname]; exact h.nodup, fun q => by rw [hname, hstore]; exact h.named q⟩
    rw [hstore, Tables.roots, hhist]
    exact h.owned.write hr (hl r' hr)

/-- The entries of the customers are not those of another row. -/
theorem customers_setIndex {s : Store Kind (Row F) Index ℤ} {r : Row F k} {ls : List (Index × ℤ)} {q : Option ℕ}
    (hls : rowLinks k r = some ls) (hk : k ≠ .customer) (key : ℤ) :
    (s.setIndex ls q).index (.tree .customers) key = s.index (.tree .customers) key :=
  (Store.setIndex_index s ls q (.tree .customers, key)).trans
    (if_neg fun hin => hk (kind_of_rowLinks (l := (.tree .customers, key)) hls hin).symm)

/-- What is inserted and linked belongs to the tables. -/
theorem owned_inserts (h : Accounted t out) {x : Op F Ptr} {r : Row F k} (hx : Op.Inserts x k r) (hk : k ≠ .history)
    (hrun : x t = some (p, t')) : t'.store.Owned (schema F) (t'.roots out) := by
  obtain ⟨ls, hls, hidx, rfl, hstore, hrest⟩ := hx.of_eq_some hrun
  have hhist : t'.history = t.history := congrArg Rest.history hrest
  rw [hstore, Tables.roots, hhist]
  exact h.owned.insert (t.cell_next k) hls (rowLinks_ne_nil hk hls) hidx

/-- **A row is inserted** that is no customer. -/
theorem inserts (h : Accounted t out) {x : Op F Ptr} {r : Row F k} (hx : Op.Inserts x k r) (hk : k ≠ .history)
    (hkc : k ≠ .customer) (hrun : x t = some (p, t')) : Accounted t' out := by
  obtain ⟨ls, hls, hidx, rfl, hstore, hrest⟩ := hx.of_eq_some hrun
  have hname : t'.customersByName = t.customersByName := congrArg Rest.customersByName hrest
  refine ⟨h.owned_inserts hx hk hrun, by rw [hname]; exact h.nodup, fun q => ?_⟩
  rw [hname, h.named, hstore]
  refine exists_congr fun key => ?_
  rw [customers_setIndex hls hkc]
  rfl

/-- **A row is erased**, and it is no customer. -/
theorem erases (h : Accounted t out) {x : Op F Unit} (hx : Op.Erases x k p) (honly : ErasesOnly x k p)
    (hk : k ≠ .history) (hkc : k ≠ .customer) (hrun : x t = some ((), t')) : Accounted t' out := by
  obtain ⟨s, hs⟩ := Option.isSome_iff_exists.mp (honly t t' hrun)
  obtain ⟨t₁, hrun', hstore, hrest⟩ := hx t s hs
  obtain rfl := (Prod.mk.inj (Option.some.inj (hrun'.symm.trans hrun))).2
  obtain ⟨r, ls, hr, hls, hidx, rfl⟩ := Op.links_of_erase hs
  have hhist : t₁.history = t.history := congrArg Rest.history hrest
  have hname : t₁.customersByName = t.customersByName := congrArg Rest.customersByName hrest
  refine ⟨?_, by rw [hname]; exact h.nodup, fun q => ?_⟩
  · rw [hstore, Tables.roots, hhist]
    exact h.owned.erase ⟨r, hr, hls⟩ (rowLinks_ne_nil hk hls) hidx
  · rw [hname, h.named, hstore]
    refine exists_congr fun key => ?_
    rw [Store.setCell_index, customers_setIndex hls hkc]

/-- A history row is appended. -/
theorem insertHistory (h : Accounted t out) {r : History F} (hrun : Op.insertHistory r t = some (p, t')) :
    Accounted t' out := by
  obtain ⟨t₁, hrun', hstore, hrest⟩ := Op.insertHistory_apply t r
  obtain ⟨rfl, rfl⟩ := Prod.mk.inj (Option.some.inj (hrun'.symm.trans hrun))
  have hhist : t₁.history = t.history ++ [t.rest.next .history] := congrArg Rest.history hrest
  have hname : t₁.customersByName = t.customersByName := congrArg Rest.customersByName hrest
  refine ⟨?_, by rw [hname]; exact h.nodup, fun q => by rw [hname, hstore]; exact h.named q⟩
  rw [hstore, Tables.roots, hhist, List.map_append, List.append_assoc]
  refine (h.owned.alloc (k := .history) (t.cell_next .history)).perm ?_
  rw [Tables.roots, List.append_assoc]
  exact List.perm_append_comm.append_left _

theorem mem_of_eraseFrom {l l' : List Ptr} (h : Op.eraseFrom p l = some l') : p ∈ l := by
  rw [Op.eraseFrom] at h
  by_contra hp
  rw [List.idxOf_of_notMem (by simpa using hp), List.length_reverse, if_neg (lt_irrefl _)] at h
  exact absurd h (by simp)

/-- A history row is erased. -/
theorem eraseHistory (h : Accounted t out) (hrun : Op.eraseHistory p t = some ((), t')) : Accounted t' out := by
  obtain ⟨_, t₁, hfrom, -⟩ := bind_eq_some hrun
  obtain ⟨l, hfrom, -⟩ := Option.map_eq_some_iff.mp hfrom
  have hmem := mem_of_eraseFrom hfrom
  obtain ⟨t₂, hrun', hstore, hrest⟩ := Op.eraseHistory_of_live t hfrom (h.history_live hmem)
  obtain rfl := (Prod.mk.inj (Option.some.inj (hrun'.symm.trans hrun))).2
  obtain ⟨l', hfrom', hperm⟩ := Op.eraseFrom_append (l := []) h.history_nodup hmem
  have hl : l = l' := Option.some.inj (hfrom.symm.trans hfrom')
  rw [← hl] at hperm
  have hhist : t₂.history = l := congrArg Rest.history hrest
  have hname : t₂.customersByName = t.customersByName := congrArg Rest.customersByName hrest
  refine ⟨?_, by rw [hname]; exact h.nodup, fun q => by rw [hname, hstore]; exact h.named q⟩
  have hroots : (t.roots out).Perm ([(.history, p)] ++ t₂.roots out) := by
    rw [Tables.roots, Tables.roots, hhist, ← List.append_assoc]
    refine List.Perm.append_right _ ?_
    exact ((List.perm_cons_erase hmem).trans (hperm.symm.cons p)).map _
  rw [hstore]
  refine (h.owned.perm hroots).free rfl fun k' q => ?_
  split
  · next hin =>
    obtain ⟨rfl, rfl⟩ := Prod.mk.inj (List.mem_singleton.mp hin)
    exact Store.setCell_cell_same ..
  · next hnot =>
    exact Store.setCell_cell_of_ne _ _ fun heq => hnot (List.mem_singleton.mpr (Prod.ext heq.1 heq.2))

/-- **A new-order row comes back** to its queue. -/
theorem insertNewOrderObject (h : Accounted t (p :: out)) (hrun : Op.insertNewOrderObject p t = some ((), t')) :
    Accounted t' out := by
  rw [Op.insertNewOrderObject] at hrun
  obtain ⟨no, t₁, hread, hrun⟩ := bind_eq_some hrun
  obtain ⟨hno, rfl⟩ := deref_eq_some hread
  obtain ⟨key, t₂, hlift, hrun⟩ := bind_eq_some hrun
  obtain ⟨hkey, rfl⟩ := lift_eq_some hlift
  split at hrun
  · next hnone =>
    obtain rfl := (Prod.mk.inj (Option.some.inj hrun)).2
    have hrow : rowLinks (F := F) .newOrder no = some [(.neworders, key)] :=
      Option.map_eq_some_iff.mpr ⟨key, hkey, rfl⟩
    have hls : t.store.Links (schema F) .newOrder p [(.neworders, key)] := ⟨no, hno, hrow⟩
    refine ⟨?_, h.nodup, fun q => ?_⟩
    · rw [Op.store_insertNewOrder]
      refine (h.owned.perm ?_).relink hls (List.cons_ne_nil _ _) fun l hl => ?_
      · rw [Tables.roots, List.map_cons]
        exact List.perm_middle
      · rw [List.mem_singleton.mp hl]
        exact hnone
    · rw [Op.store_insertNewOrder]
      refine (h.named q).trans (exists_congr fun k' => ?_)
      rw [customers_setIndex hrow (by simp)]
  · exact absurd hrun (by simp)

/-! ### Insertions -/

theorem insertCustomer (h : Accounted t out) {customer : Customer F}
    (hrun : Op.insertCustomer customer t = some ((), t')) : Accounted t' out := by
  obtain ⟨x, p, t₁, l, hx, hinsert, hby, -, rfl⟩ := Op.insertCustomer_eq_some hrun
  have howned := h.owned_inserts hx (by simp) hinsert
  have hwf := (hx.grows hinsert).wellFormed h.wellFormed
  obtain ⟨ls, hls, hidx, rfl, hstore, hrest⟩ := hx.of_eq_some hinsert
  obtain ⟨key, hkey, rfl⟩ := Option.map_eq_some_iff.mp hls
  have hname : t₁.customersByName = t.customersByName := congrArg Rest.customersByName hrest
  obtain rfl := (Prod.mk.inj (Option.some.inj ((Op.byName_apply hwf).symm.trans hby))).1
  -- the row is new
  have hfresh : t.rest.next .customer ∉ t.customersByName := fun hin => by
    have hlive := h.wellFormed.customersByName _ hin
    rw [t.cell_next] at hlive
    exact absurd hlive (by simp)
  have hperm : (t₁.customersByName.insertIdx (Op.lowerBound (Op.nameKey customer) t₁.names) (t.rest.next .customer)).Perm
      (t.rest.next .customer :: t.customersByName) := by
    rw [← hname]
    refine List.perm_insertIdx _ _ ?_
    rw [← hwf.names_fst, List.length_map]
    exact (List.takeWhile_prefix _).length_le
  refine ⟨howned, hperm.nodup_iff.mpr (List.nodup_cons.mpr ⟨hfresh, h.nodup⟩), fun q => ?_⟩
  refine hperm.mem_iff.trans (List.mem_cons.trans ?_)
  rw [h.named]
  have hcust : ∀ key', t₁.store.index (.tree .customers) key' =
      if key' = key then some (t.rest.next .customer) else t.store.index (.tree .customers) key' := fun key' => by
    rw [hstore]
    refine (Store.setIndex_index _ _ _ (Index.tree .customers, key')).trans (if_congr ?_ rfl rfl)
    simp
  constructor
  · rintro (rfl | ⟨key', hkey'⟩)
    · exact ⟨key, (hcust key).trans (if_pos rfl)⟩
    · refine ⟨key', (hcust key').trans ((if_neg fun heq => ?_).trans hkey')⟩
      have hnone := hidx (.tree .customers, key') (by rw [heq]; exact List.mem_singleton_self _)
      exact absurd (hnone.symm.trans hkey') (by simp)
  · rintro ⟨key', hkey'⟩
    have hkey' := (hcust key').symm.trans hkey'
    split at hkey'
    · exact Or.inl (Option.some.inj hkey').symm
    · exact Or.inr ⟨key', hkey'⟩

/-- An insertion that does not return what it has inserted. -/
theorem discards (h : Accounted t out) {x : Op F Ptr} {r : Row F k} (hx : Op.Inserts x k r) (hk : k ≠ .history)
    (hkc : k ≠ .customer) {y : Op F Unit} (hy : y = x >>= fun _ => pure ()) (hrun : y t = some ((), t')) :
    Accounted t' out := by
  rw [hy] at hrun
  obtain ⟨p, t₁, hinsert, hrun⟩ := bind_eq_some hrun
  obtain rfl := (Prod.mk.inj (Option.some.inj hrun)).2
  exact h.inserts hx hk hkc hinsert

end Accounted

/-- A warehouse has an id. The zero key can get lost in a tree, and its row with it. -/
def Insertion.Numbered : Insertion F → Prop
  | .warehouse w => w.wId ≠ 0
  | _ => True

/-- **An insertion.** -/
theorem Accounted.insertion (h : Accounted t out) {i : Insertion F} (hi : i.Numbered)
    (hrun : i.exec t = some ((), t')) : Accounted t' out := by
  cases i with
  | item i =>
    rw [Insertion.exec, Op.insertItem] at hrun
    split at hrun
    · obtain rfl := (Prod.mk.inj (Option.some.inj hrun)).2
      exact ⟨h.owned, h.nodup, h.named⟩
    · exact absurd hrun (by simp)
  | warehouse w =>
    have hlinks : rowLinks .warehouse w = (some w.wId).map fun key => [(Index.tree .warehouses, key)] := rfl
    have hx := Op.insertKeyed_inserts (fun key hkey => Option.some.inj hkey ▸ hi) hlinks
    exact h.discards hx (by simp) (by simp) rfl hrun
  | stock s =>
    exact h.discards (Op.insertKeyed_inserts (F := F) (k := .stock) (r := s) (fun _ => makeStockKey_ne_zero) rfl)
      (by simp) (by simp) (by simp only [Insertion.exec, Op.insertStock, bind_assoc]) hrun
  | district d =>
    exact h.discards (Op.insertKeyed_inserts (k := .district) (r := d) (fun _ => makeDistrictKey_ne_zero) rfl)
      (by simp) (by simp) (by simp only [Insertion.exec, Op.insertDistrict, bind_assoc]) hrun
  | customer c => exact h.insertCustomer hrun
  | order o => exact h.discards (Op.insertOrder_inserts o) (by simp) (by simp) rfl hrun
  | orderLine ol => exact h.discards (Op.insertOrderLine_inserts ol) (by simp) (by simp) rfl hrun
  | newOrder wId dId oId => exact h.discards (Op.insertNewOrder_inserts wId dId oId) (by simp) (by simp) rfl hrun
  | history r =>
    obtain ⟨p, t₁, hinsert, hrun⟩ := bind_eq_some hrun
    obtain rfl := (Prod.mk.inj (Option.some.inj hrun)).2
    exact h.insertHistory hinsert

namespace Accounted

/-! ### Transactions and their buffers -/

/-- **What a transaction did**: the rows it has unlinked are its buffer's. -/
theorem journals (h : Accounted t out) (hj : Journals t u t') : Accounted t' (u.deleted .newOrder ++ out) := by
  obtain ⟨l, hhist, hl⟩ := hj.history
  have hhist : t'.history = t.history ++ l := hhist
  have hname : t'.customersByName = t.customersByName := hj.customersByName
  have hdel : ∀ {k : Kind} {p : Ptr}, p ∈ u.deleted k → k = .newOrder := fun {k p} hp => by
    by_contra hk
    rw [hj.deleted k hk] at hp
    exact List.not_mem_nil hp
  refine ⟨?_, by rw [hname]; exact h.nodup, fun q => ?_⟩
  · set new : List (Kind × ℕ) := l.map (Prod.mk .history) ++ (u.deleted .newOrder).map (Prod.mk .newOrder) with hnew
    have hperm : (t.roots out ++ new).Perm (t'.roots (u.deleted .newOrder ++ out)) := by
      rw [Tables.roots, Tables.roots, hhist, hnew, List.map_append, List.map_append, List.append_assoc,
        List.append_assoc]
      refine List.Perm.append_left _ ?_
      rw [← List.append_assoc (l.map (Prod.mk Kind.history))]
      exact List.perm_append_comm
    refine (h.owned.undoes hj.undoes hj.linked ?_ ?_ ?_).perm hperm
    · refine List.nodup_append.mpr ⟨?_, ?_, ?_⟩
      · exact (hl.nodup_iff.mpr (hj.undoes.inserted_nodup .history)).map fun _ _ heq => (Prod.mk.inj heq).2
      · exact (hj.undoes.deleted_nodup .newOrder).map fun _ _ heq => (Prod.mk.inj heq).2
      · intro e he e' he' heq
        obtain ⟨_, -, rfl⟩ := List.mem_map.mp he
        obtain ⟨_, -, rfl⟩ := List.mem_map.mp he'
        exact absurd (Prod.mk.inj heq).1 (by simp)
    · rintro ⟨k, p⟩
      constructor
      · intro he
        rcases List.mem_append.mp he with he | he
        · obtain ⟨_, hp, heq⟩ := List.mem_map.mp he
          obtain ⟨rfl, rfl⟩ := Prod.mk.inj heq
          have hin := hl.mem_iff.mp hp
          obtain ⟨ls, ⟨r, hr, hls⟩, -⟩ := hj.undoes.inserted_linked hin
          exact Or.inr ⟨hin, r, hr, rfl⟩
        · obtain ⟨_, hp, heq⟩ := List.mem_map.mp he
          obtain ⟨rfl, rfl⟩ := Prod.mk.inj heq
          exact Or.inl hp
      · rintro (hin | ⟨hin, r, -, hls⟩)
        · obtain rfl := hdel hin
          exact List.mem_append_right _ (List.mem_map_of_mem hin)
        · by_cases hk : k = .history
          · subst hk
            exact List.mem_append_left _ (List.mem_map_of_mem (hl.mem_iff.mpr hin))
          · exact absurd rfl (rowLinks_ne_nil hk hls)
    · rintro k p hin ⟨r, -, hls⟩
      obtain rfl := hdel hin
      exact rowLinks_ne_nil (F := F) (k := .newOrder) (by simp) hls rfl
  · rw [hname, h.named]
    refine exists_congr fun key => ?_
    have hins : ∀ e, ¬Log.LinkOf (schema F) t'.store u.inserted (.tree .customers, key) e := by
      rintro ⟨k, p⟩ ⟨hin, ls, ⟨r, -, hls⟩, hl⟩
      obtain rfl : Kind.customer = k := kind_of_rowLinks hls hl
      rw [hj.inserted .customer (by decide)] at hin
      exact List.not_mem_nil hin
    have hdels : ∀ e, ¬Log.LinkOf (schema F) t'.store u.deleted (.tree .customers, key) e := by
      rintro ⟨k, p⟩ ⟨hin, ls, ⟨r, -, hls⟩, hl⟩
      obtain rfl : Kind.customer = k := kind_of_rowLinks hls hl
      exact absurd (hdel hin) (by simp)
    rw [← hj.undoes.index_kept (l := (.tree .customers, key)) hins hdels]

/-- New-order rows that are out are freed. -/
theorem freed {l : List Ptr} (h : Accounted t (l ++ out)) (hr : t'.rest = t.rest)
    (hindex : t'.store.index = t.store.index)
    (hcell : ∀ k p, t'.store.cell k p = if k = .newOrder ∧ p ∈ l then none else t.store.cell k p) :
    Accounted t' out := by
  have hhist : t'.history = t.history := congrArg Rest.history hr
  have hname : t'.customersByName = t.customersByName := congrArg Rest.customersByName hr
  refine ⟨?_, by rw [hname]; exact h.nodup, fun q => by rw [hname, hindex]; exact h.named q⟩
  have hroots : (t.roots (l ++ out)).Perm (l.map (Prod.mk .newOrder) ++ t'.roots out) := by
    rw [Tables.roots, Tables.roots, hhist, List.map_append]
    exact List.perm_append_comm_assoc ..
  refine (h.owned.perm hroots).free hindex fun k' q => ?_
  rw [hcell]
  refine if_congr ?_ rfl rfl
  rw [List.mem_map]
  constructor
  · rintro ⟨rfl, hq⟩
    exact ⟨q, hq, rfl⟩
  · rintro ⟨_, hq, heq⟩
    obtain ⟨rfl, rfl⟩ := Prod.mk.inj heq
    exact ⟨rfl, hq⟩

/-- **A buffer is freed**, whenever that is. -/
theorem freeUndo (h : Accounted t (u.deleted .newOrder ++ out)) (order : HashOrder) :
    ∃ t', Op.freeUndo order u t = some ((), t') ∧ Accounted t' out ∧ Evolves t t' ∧
      t'.store.index = t.store.index := by
  have hperm := order.perm _ (u.deleted .newOrder)
  have hnd := (List.nodup_append.mp h.out_nodup).1
  obtain ⟨t₁, hrun, hrest, hindex, hcell⟩ := delete_all (hperm.nodup_iff.mpr hnd) (t := t)
    fun p hp => h.out_live (List.mem_append_left _ (hperm.mem_iff.mp hp))
  have hcell : ∀ k p, t₁.store.cell k p = if k = .newOrder ∧ p ∈ u.deleted .newOrder then none
      else t.store.cell k p := fun k p => by
    rw [hcell]
    exact if_congr (and_congr_right fun _ => hperm.mem_iff) rfl rfl
  have hacc : Accounted t₁ out := h.freed hrest hindex hcell
  refine ⟨t₁, hrun, hacc, ⟨fun _ => hacc.owned.linked, fun k => by rw [hrest], fun {k p r'} _ hr' => ?_⟩, hindex⟩
  rw [hcell] at hr'
  split at hr'
  · exact absurd hr' (by simp)
  · exact ⟨r', hr', rfl⟩

/-- **A transaction is committed**, with a buffer or without. -/
theorem commit (h : Accounted t out) {α : Type} {x : Tx F α} (hx : x.Journaled) {free : Option HashOrder} {a : α}
    (hrun : x.commit free t = some (a, t')) : Accounted t' out := by
  have hnull : ∀ a' t₁, x.commit none t = some (a', t₁) → Accounted t₁ out := by
    intro a' t₁ h₁
    obtain ⟨r', hr', heq⟩ := Option.map_eq_some_iff.mp h₁
    obtain rfl := (Prod.mk.inj heq).2
    have hrel := hx t h.owned.linked
    rw [hr'] at hrel
    generalize x ⟨t, some none⟩ = r at hrel
    cases hrel with
    | some hopen =>
      obtain ⟨-, o, -, -, hj, hw, -⟩ := hopen
      refine (h.journals hj).freed hw.rest hw.index fun k p => ?_
      rw [hw.cell]
      refine if_congr ⟨fun hp => ?_, fun hp => hp.1 ▸ hp.2⟩ rfl rfl
      by_cases hk : k = .newOrder
      · exact ⟨hk, hk ▸ hp⟩
      · rw [hj.deleted k hk] at hp
        exact absurd hp List.not_mem_nil
  cases free with
  | none => exact hnull a t' hrun
  | some order =>
    have hrel := hx.commit h.owned.linked order
    rw [hrun] at hrel
    generalize hnone : x.commit none t = r at hrel
    cases hrel with
    | some hsame => exact (hnull _ _ hnone).congr hsame.2.1 hsame.2.2

/-! ### Undoing -/

/-- A loop keeps what each turn keeps. -/
theorem forM_keeps {ι : Type} {P : Tables F → Prop} {x : ι → Op F Unit} {l : List ι}
    (hx : ∀ i ∈ l, ∀ t t', P t → x i t = some ((), t') → P t') (hP : P t) (hrun : l.forM x t = some ((), t')) :
    P t' := by
  induction l generalizing t with
  | nil =>
    obtain rfl := (Prod.mk.inj (Option.some.inj hrun)).2
    exact hP
  | cons i l ih =>
    obtain ⟨_, t₁, h₁, hrun⟩ := bind_eq_some hrun
    refine ih (fun j hj => hx j (List.mem_cons_of_mem _ hj)) ?_ hrun
    exact hx i List.mem_cons_self t t₁ hP h₁

/-- Accounted for, with images of rows that are linked as they are. -/
def Imaged (u : TPCCUndo F) (out : List Ptr) (t : Tables F) : Prop := Accounted t out ∧ Images u t

theorem restoreFromMap {order : HashOrder} (h : Imaged u out t)
    (hrun : Op.restoreFromMap order k (u.modified k) t = some ((), t')) : Imaged u out t' := by
  refine forM_keeps (fun e he t₁ t₂ h₁ hrun => ?_) h hrun
  have hl := (h₁.2 ((order.perm _ _).mem_iff.mp he)).2
  exact ⟨h₁.1.assign hl hrun, h₁.2.evolves (assign_evolves hl hrun)⟩

theorem eraseTuple {order : HashOrder} {l : List Ptr} {erase : Ptr → Op F Unit} (h : Imaged u out t)
    (hx : ∀ p, Op.Erases (erase p) k p) (honly : ∀ p, ErasesOnly (erase p) k p) (hk : k ≠ .history)
    (hkc : k ≠ .customer) (hrun : Op.eraseTuple order l erase t = some ((), t')) : Imaged u out t' := by
  refine forM_keeps (fun p _ t₁ t₂ h₁ hrun => ?_) h hrun
  exact ⟨h₁.1.erases (hx p) (honly p) hk hkc hrun, h₁.2.evolves (evolves_of_erases (hx p) (honly p) hrun)⟩

theorem eraseHistories {order : HashOrder} {l : List Ptr} (h : Imaged u out t)
    (hrun : Op.eraseTuple order l Op.eraseHistory t = some ((), t')) : Imaged u out t' := by
  refine forM_keeps (fun p _ t₁ t₂ h₁ hrun => ?_) h hrun
  exact ⟨h₁.1.eraseHistory hrun, h₁.2.evolves (eraseHistory_evolves hrun)⟩

theorem insertNewOrderObjects {l : List Ptr} (h : Accounted t (l ++ out))
    (hrun : l.forM Op.insertNewOrderObject t = some ((), t')) : Accounted t' out := by
  induction l generalizing t with
  | nil =>
    obtain rfl := (Prod.mk.inj (Option.some.inj hrun)).2
    exact h
  | cons p l ih =>
    obtain ⟨_, t₁, h₁, hrun⟩ := bind_eq_some hrun
    exact ih (h.insertNewOrderObject h₁) hrun

/-- **A buffer is applied**, whenever that is. -/
theorem applyUndo {order : HashOrder} (h : Accounted t (u.deleted .newOrder ++ out)) (hu : Images u t)
    (hrun : Op.applyUndo order u t = some ((), t')) : Accounted t' out := by
  obtain ⟨_, t₁, h₁, hrun⟩ := bind_eq_some hrun
  have i₁ := restoreFromMap ⟨h, hu⟩ h₁
  obtain ⟨_, t₂, h₂, hrun⟩ := bind_eq_some hrun
  have i₂ := restoreFromMap i₁ h₂
  obtain ⟨_, t₃, h₃, hrun⟩ := bind_eq_some hrun
  have i₃ := restoreFromMap i₂ h₃
  obtain ⟨_, t₄, h₄, hrun⟩ := bind_eq_some hrun
  have i₄ := restoreFromMap i₃ h₄
  obtain ⟨_, t₅, h₅, hrun⟩ := bind_eq_some hrun
  have i₅ := restoreFromMap i₄ h₅
  obtain ⟨_, t₆, h₆, hrun⟩ := bind_eq_some hrun
  have i₆ := restoreFromMap i₅ h₆
  obtain ⟨_, t₇, h₇, hrun⟩ := bind_eq_some hrun
  have i₇ := eraseTuple i₆ Op.eraseOrder_erases eraseOrder_only (by simp) (by simp) h₇
  obtain ⟨_, t₈, h₈, hrun⟩ := bind_eq_some hrun
  have i₈ := eraseTuple i₇ Op.eraseOrderLine_erases eraseOrderLine_only (by simp) (by simp) h₈
  obtain ⟨_, t₉, h₉, hrun⟩ := bind_eq_some hrun
  have i₉ := eraseTuple i₈ Op.eraseNewOrder_erases eraseNewOrder_only (by simp) (by simp) h₉
  obtain ⟨_, t₁₀, h₁₀, hrun⟩ := bind_eq_some hrun
  have i₁₀ := eraseHistories i₉ h₁₀
  refine insertNewOrderObjects (i₁₀.1.perm ?_) hrun
  exact (order.perm _ _).symm.append_right _

end Accounted

/-! ### The destructor -/

/-- `STLDeleteElements` of the customers in name order. -/
def Op.deleteCustomers : Op F Unit := do
  let t ← (StateT.get : Op F (Tables F))
  t.customersByName.forM (delete .customer)
  fun t => some ((), { t with customersByName := [] })

/-- `STLDeleteElements` of the history. -/
def Op.deleteHistory : Op F Unit := do
  let t ← (StateT.get : Op F (Tables F))
  t.history.forM (delete .history)
  fun t => some ((), { t with history := [] })

/-- `STLDeleteValues` of the new orders. -/
def Op.deleteNewOrders : Op F Unit := do
  let t ← (StateT.get : Op F (Tables F))
  (t.neworders.entries.map Prod.snd).forM (delete .newOrder)
  fun t => some ((), { t with neworders := OrderedMap.empty })

theorem Op.deleteCustomers_apply (h : t.customersByName.forM (delete .customer) t = some ((), t')) :
    deleteCustomers t = some ((), { t' with customersByName := [] }) := by
  rw [deleteCustomers, bind_apply, show (StateT.get : Op F (Tables F)) t = some (t, t) from rfl, Option.bind_some,
    bind_apply, h]
  rfl

theorem Op.deleteHistory_apply (h : t.history.forM (delete .history) t = some ((), t')) :
    deleteHistory t = some ((), { t' with history := [] }) := by
  rw [deleteHistory, bind_apply, show (StateT.get : Op F (Tables F)) t = some (t, t) from rfl, Option.bind_some,
    bind_apply, h]
  rfl

theorem Op.deleteNewOrders_apply
    (h : (t.neworders.entries.map Prod.snd).forM (delete .newOrder) t = some ((), t')) :
    deleteNewOrders t = some ((), { t' with neworders := OrderedMap.empty }) := by
  rw [deleteNewOrders, bind_apply, show (StateT.get : Op F (Tables F)) t = some (t, t) from rfl, Option.bind_some,
    bind_apply, h]
  rfl

/-- The trees whose rows `~TPCCTables` deletes. -/
def ownedTrees : List TreeName := [.warehouses, .stock, .districts, .orders, .orderlines]

/-- `~TPCCTables`. -/
def Op.destruct : Op F Unit := do
  ownedTrees.forM deleteBTreeValues
  deleteNewOrders
  deleteCustomers
  deleteHistory

/-- The tree leads to the row, and the search from the largest key finds it. -/
def Tables.Found (t : Tables F) (n : TreeName) (p : Ptr) : Prop :=
  ∃ key, (t.tree n).find key = some p ∧ key < int32Max

/-- **Each row that is found in a tree is freed once**, and no other. The rows of other trees need not be there. -/
theorem Op.deleteBTreeValues_frees_found
    (hinj : ∀ {key key' p}, (t.tree n).find key = some p → (t.tree n).find key' = some p → key = key')
    (hlive : ∀ p, t.Found n p → (t.store.cell (Index.kind (.tree n)) p).isSome) :
    ∃ t', deleteBTreeValues n t = some ((), t') ∧ t'.rest = t.rest ∧ t'.store.index = t.store.index ∧
      ∀ k p, t'.store.cell k p = none ↔ t.store.cell k p = none ∨ k = Index.kind (.tree n) ∧ t.Found n p := by
  have hspec := (t.tree n).1.deleteValuesFrom_spec (t.tree n).2 int32Max none
  have hs : Assoc.Sorted (Assoc.live (t.tree n).1.contents) :=
    Assoc.sorted_live (Node.sorted (t.tree n).1.depth (t.tree n).2)
  generalize hl : ((Assoc.live (t.tree n).1.contents).filter fun e => decide (e.1 < int32Max)).reverse = l
    at hspec
  have hmem : ∀ key p, (key, p) ∈ l ↔ (t.tree n).find key = some p ∧ key < int32Max := fun key p => by
    rw [← hl, List.mem_reverse, List.mem_filter, Tree.mem_live, decide_eq_true_iff]
  have hin : ∀ p, p ∈ l.map Prod.snd ↔ t.Found n p := by
    intro p
    rw [List.mem_map]
    constructor
    · rintro ⟨e, he, rfl⟩
      exact ⟨e.1, (hmem e.1 e.2).mp he⟩
    · rintro ⟨key, hp⟩
      exact ⟨(key, p), (hmem key p).mpr hp, rfl⟩
  have hnd : (l.map Prod.snd).Nodup := by
    refine List.Nodup.map_on (fun e he e' he' heq => ?_) ?_
    · have hp := ((hmem e.1 e.2).mp he).1
      have hp' := ((hmem e'.1 e'.2).mp he').1
      rw [← heq] at hp'
      exact Prod.ext (hinj hp hp') heq
    · rw [← hl, List.nodup_reverse]
      exact List.Nodup.filter _ (List.Pairwise.imp (fun hlt heq => ne_of_lt hlt (congrArg Prod.fst heq)) hs)
  obtain ⟨t', hrun, hrest, hindex, hcell⟩ := delete_all hnd (t := t) fun p hp => hlive p ((hin p).mp hp)
  refine ⟨t', ?_, hrest, hindex, fun k p => ?_⟩
  · have hvalues : (t.tree n).1.deleteBTreeValues int32Max = some l := hspec
    rw [deleteBTreeValues, hvalues, Option.bind_some]
    exact hrun
  · rw [hcell, ← hin]
    split
    · next hfound => exact ⟨fun _ => Or.inr hfound, fun _ => rfl⟩
    · next hnot => exact ⟨Or.inl, fun h => h.resolve_right hnot⟩

/-- What freeing rows does to the rest. -/
structure Frees (t t' : Tables F) (gone : Kind → Ptr → Prop) : Prop where
  rest : t'.rest = t.rest
  index : t'.store.index = t.store.index
  cell (k : Kind) (p : Ptr) : t'.store.cell k p = none ↔ t.store.cell k p = none ∨ gone k p

theorem Frees.trans {t'' : Tables F} {gone gone' : Kind → Ptr → Prop} (h : Frees t t' gone) (h' : Frees t' t'' gone') :
    Frees t t'' fun k p => gone k p ∨ gone' k p where
  rest := h'.rest.trans h.rest
  index := h'.index.trans h.index
  cell k p := by rw [h'.cell, h.cell, or_assoc]

theorem Frees.live {gone : Kind → Ptr → Prop} (h : Frees t t' gone) (hp : (t.store.cell k p).isSome)
    (hkeep : ¬gone k p) : (t'.store.cell k p).isSome := by
  rw [Option.isSome_iff_ne_none] at hp ⊢
  exact fun hnone => ((h.cell k p).mp hnone).elim hp hkeep

theorem Frees.found {gone : Kind → Ptr → Prop} (h : Frees t t' gone) : t'.Found n p ↔ t.Found n p := by
  refine exists_congr fun key => ?_
  rw [← Tables.index_tree, ← Tables.index_tree, h.index]

/-- A list of rows is freed. -/
theorem frees_all {l : List Ptr} (hnd : l.Nodup) (hlive : ∀ p ∈ l, (t.store.cell k p).isSome) :
    ∃ t', l.forM (Op.delete k) t = some ((), t') ∧ Frees t t' fun k' p => k' = k ∧ p ∈ l := by
  obtain ⟨t', hrun, hrest, hindex, hcell⟩ := delete_all hnd hlive
  refine ⟨t', hrun, hrest, hindex, fun k' p => ?_⟩
  rw [hcell]
  split
  · next hin => exact ⟨fun _ => Or.inr hin, fun _ => rfl⟩
  · next hout => exact ⟨Or.inl, fun h => h.resolve_right hout⟩

/-- **The rows of trees of different kinds** are freed, one tree after the other. -/
theorem frees_trees {ns : List TreeName} (hkinds : (ns.map fun n => Index.kind (.tree n)).Nodup)
    (hinj : ∀ {n key key' p}, (t.tree n).find key = some p → (t.tree n).find key' = some p → key = key')
    (hlive : ∀ n ∈ ns, ∀ p, t.Found n p → (t.store.cell (Index.kind (.tree n)) p).isSome) :
    ∃ t', ns.forM Op.deleteBTreeValues t = some ((), t') ∧
      Frees t t' fun k p => ∃ n ∈ ns, k = Index.kind (.tree n) ∧ t.Found n p := by
  induction ns generalizing t with
  | nil => exact ⟨t, rfl, rfl, rfl, fun k p => by simp⟩
  | cons n ns ih =>
    obtain ⟨hn, hns⟩ := List.nodup_cons.mp hkinds
    obtain ⟨t₁, hrun₁, hrest₁, hindex₁, hcell₁⟩ :=
      Op.deleteBTreeValues_frees_found (n := n) hinj (hlive n List.mem_cons_self)
    have h₁ : Frees t t₁ fun k p => k = Index.kind (.tree n) ∧ t.Found n p := ⟨hrest₁, hindex₁, hcell₁⟩
    have hfind : ∀ n key, (t₁.tree n).find key = (t.tree n).find key := fun n key => by
      rw [← Tables.index_tree, ← Tables.index_tree, hindex₁]
    obtain ⟨t₂, hrun₂, h₂⟩ := ih (t := t₁) hns
      (fun {n key key' p} hp hp' => hinj ((hfind n key).symm.trans hp) ((hfind n key').symm.trans hp'))
      fun n' hn' p hp => by
        refine h₁.live (hlive n' (List.mem_cons_of_mem _ hn') p (h₁.found.mp hp)) fun hgone => hn ?_
        exact List.mem_map.mpr ⟨n', hn', hgone.1⟩
    refine ⟨t₂, ?_, ?_⟩
    · rw [forM_cons_apply, hrun₁]
      exact hrun₂
    · have h := h₁.trans h₂
      refine ⟨h.rest, h.index, fun k p => (h.cell k p).trans (or_congr_right ?_)⟩
      simp only [List.mem_cons, exists_eq_or_imp, h₁.found]

/-- A row is in one place of an index. -/
theorem Tables.index_inj (h : t.store.Linked (schema F)) {i : Index} {key key' : ℤ}
    (hp : t.store.index i key = some p) (hp' : t.store.index i key' = some p) : key = key' := by
  obtain ⟨ls, ⟨r, hr, hls⟩, hl, -⟩ := h (i, key) p hp
  obtain ⟨ls', ⟨r', hr', hls'⟩, hl', -⟩ := h (i, key') p hp'
  obtain rfl := Option.some.inj (hr.symm.trans hr')
  obtain rfl := Option.some.inj (hls.symm.trans hls')
  exact key_unique_of_rowLinks hls hl hl'

theorem kind_of_mem_ownedTrees : ∀ n ∈ ownedTrees, Index.kind (.tree n) ≠ .newOrder ∧
    Index.kind (.tree n) ≠ .customer ∧ Index.kind (.tree n) ≠ .history := by
  decide

/-- What is reached is the history's, a new order's or a customer's, or in one of the trees whose rows are
deleted. -/
theorem Accounted.cases (h : Accounted t []) (hp : (t.store.cell k p).isSome) :
    (k = .history ∧ p ∈ t.history) ∨ (k = .customer ∧ p ∈ t.customersByName) ∨
      (k = .newOrder ∧ ∃ key, t.store.index .neworders key = some p) ∨
      ∃ n ∈ ownedTrees, k = Index.kind (.tree n) ∧ ∃ key, (t.tree n).find key = some p := by
  rcases h.owned.owner (e := (k, p)) hp with hroot | ⟨⟨i, key⟩, rfl, hp⟩
  · rcases List.mem_append.mp hroot with hroot | hroot
    · obtain ⟨_, hin, heq⟩ := List.mem_map.mp hroot
      obtain ⟨rfl, rfl⟩ := Prod.mk.inj heq
      exact Or.inl ⟨rfl, hin⟩
    · exact absurd hroot List.not_mem_nil
  · cases i with
    | neworders => exact Or.inr (Or.inr (Or.inl ⟨rfl, key, hp⟩))
    | tree n =>
      cases n with
      | customers => exact Or.inr (Or.inl ⟨rfl, (h.named p).mpr ⟨key, hp⟩⟩)
      | ordersByCustomer =>
        -- the order is in the other tree as well
        obtain ⟨_, primary, _, -, -, -, -, hprimary, -⟩ := order_of_find (Or.inr rfl) h.owned.linked hp
        exact Or.inr (Or.inr (Or.inr ⟨.orders, by decide, rfl, primary, hprimary⟩))
      | warehouses => exact Or.inr (Or.inr (Or.inr ⟨.warehouses, by decide, rfl, key, hp⟩))
      | stock => exact Or.inr (Or.inr (Or.inr ⟨.stock, by decide, rfl, key, hp⟩))
      | districts => exact Or.inr (Or.inr (Or.inr ⟨.districts, by decide, rfl, key, hp⟩))
      | orders => exact Or.inr (Or.inr (Or.inr ⟨.orders, by decide, rfl, key, hp⟩))
      | orderlines => exact Or.inr (Or.inr (Or.inr ⟨.orderlines, by decide, rfl, key, hp⟩))

/-- **The destructor frees every row once.** Only a row with the largest key in its tree is left: the search from
that key on goes below it. -/
theorem Accounted.destruct (h : Accounted t []) : ∃ t', Op.destruct t = some ((), t') ∧
    ∀ k p, (t'.cell k p).isSome ↔ ∃ n ∈ ownedTrees, k = Index.kind (.tree n) ∧
      ∃ key, (t.tree n).find key = some p ∧ int32Max ≤ key := by
  have hlinked := h.owned.linked
  have hlive : ∀ {i : Index} {key : ℤ} {p : Ptr}, t.store.index i key = some p → (t.store.cell i.kind p).isSome :=
    fun {i key p} hp => hlinked.isSome_of_reaches (e := (i.kind, p)) ⟨(i, key), rfl, hp⟩
  -- the trees
  obtain ⟨t₁, hrun₁, h₁⟩ := frees_trees (by decide : (ownedTrees.map fun n => Index.kind (.tree n)).Nodup)
    (fun hp hp' => Tables.find_inj hlinked hp hp')
    fun n _ p ⟨key, hp, _⟩ => hlive (i := .tree n) hp
  have hkeep : ∀ {k p}, (k = .newOrder ∨ k = .customer ∨ k = .history) → (t.store.cell k p).isSome →
      (t₁.store.cell k p).isSome := by
    intro k p hk hp
    refine h₁.live hp ?_
    rintro ⟨n, hn, rfl, -⟩
    obtain ⟨hne, hne', hne''⟩ := kind_of_mem_ownedTrees n hn
    rcases hk with hk | hk | hk
    · exact hne hk
    · exact hne' hk
    · exact hne'' hk
  -- the new orders
  have hnew : ∀ key p, (key, p) ∈ t₁.neworders.entries ↔ t.store.index .neworders key = some p := fun key p => by
    rw [OrderedMap.mem_entries, ← Tables.index_neworders, h₁.index]
  have hneworders : (t₁.neworders.entries.map Prod.snd).Nodup := by
    refine List.Nodup.map_on (fun e he e' he' heq => ?_) ?_
    · have hp := (hnew e.1 e.2).mp he
      have hp' := (hnew e'.1 e'.2).mp he'
      rw [← heq] at hp'
      exact Prod.ext (Tables.index_inj hlinked hp hp') heq
    · exact t₁.neworders.sorted.imp fun hlt heq => ne_of_lt hlt (congrArg Prod.fst heq)
  obtain ⟨t₂, hrun₂, h₂⟩ := frees_all hneworders (t := t₁) (k := .newOrder) fun p hp => by
    obtain ⟨e, he, rfl⟩ := List.mem_map.mp hp
    exact hkeep (Or.inl rfl) (hlive ((hnew e.1 e.2).mp he))
  have h₁₂ := h₁.trans h₂
  -- the customers
  have hname₂ : t₂.customersByName = t.customersByName := congrArg Rest.customersByName h₁₂.rest
  obtain ⟨t₃, hrun₃, h₃⟩ := frees_all (t := { t₂ with neworders := OrderedMap.empty }) (k := .customer)
    (l := t₂.customersByName) (by rw [hname₂]; exact h.nodup) fun p hp => by
      rw [hname₂] at hp
      refine h₂.live (hkeep (Or.inr (Or.inl rfl)) (h.wellFormed.customersByName p hp)) fun hgone => ?_
      exact absurd hgone.1 (by simp)
  -- the history
  have hhist₃ : t₃.history = t.history := by
    have hhist : t₃.history = t₂.history := congrArg Rest.history h₃.rest
    exact hhist.trans (congrArg Rest.history h₁₂.rest)
  obtain ⟨t₄, hrun₄, h₄⟩ := frees_all (t := { t₃ with customersByName := [] }) (k := .history) (l := t₃.history)
    (by rw [hhist₃]; exact h.history_nodup) fun p hp => by
      rw [hhist₃] at hp
      refine h₃.live (h₂.live (hkeep (Or.inr (Or.inr rfl)) (h.history_live hp)) fun hgone => ?_) fun hgone => ?_
      · exact absurd hgone.1 (by simp)
      · exact absurd hgone.1 (by simp)
  refine ⟨{ t₄ with history := [] }, ?_, fun k p => ?_⟩
  · rw [Op.destruct, bind_apply, hrun₁, Option.bind_some, bind_apply, Op.deleteNewOrders_apply hrun₂,
      Option.bind_some, bind_apply, Op.deleteCustomers_apply hrun₃, Option.bind_some]
    exact Op.deleteHistory_apply hrun₄
  · have hgone : t₄.store.cell k p = none ↔ ((t.store.cell k p = none ∨
        (∃ n ∈ ownedTrees, k = Index.kind (.tree n) ∧ t.Found n p) ∨
          k = .newOrder ∧ p ∈ t₁.neworders.entries.map Prod.snd) ∨ k = .customer ∧ p ∈ t₂.customersByName) ∨
        k = .history ∧ p ∈ t₃.history :=
      (h₄.cell k p).trans (or_congr_left ((h₃.cell k p).trans (or_congr_left (h₁₂.cell k p))))
    rw [Option.isSome_iff_ne_none]
    refine (not_congr hgone).trans ?_
    rw [hname₂, hhist₃]
    constructor
    · intro hleft
      have hp : (t.store.cell k p).isSome :=
        Option.isSome_iff_ne_none.mpr fun hnone => hleft (Or.inl (Or.inl (Or.inl hnone)))
      rcases h.cases hp with hin | hin | ⟨rfl, key, hkey⟩ | ⟨n, hn, rfl, key, hkey⟩
      · exact absurd (Or.inr hin) hleft
      · exact absurd (Or.inl (Or.inr hin)) hleft
      · have hin : p ∈ t₁.neworders.entries.map Prod.snd := List.mem_map.mpr ⟨(key, p), (hnew key p).mpr hkey, rfl⟩
        exact absurd (Or.inl (Or.inl (Or.inr (Or.inr ⟨rfl, hin⟩)))) hleft
      · refine ⟨n, hn, rfl, key, hkey, not_lt.mp fun hlt => ?_⟩
        exact hleft (Or.inl (Or.inl (Or.inr (Or.inl ⟨n, hn, rfl, key, hkey, hlt⟩))))
    · rintro ⟨n, hn, rfl, key, hkey, hle⟩
      obtain ⟨hne, hne', hne''⟩ := kind_of_mem_ownedTrees n hn
      have hp := hlive (i := .tree n) hkey
      rintro (((hnone | ⟨n', hn', hk, key', hkey', hlt⟩ | hin) | hin) | hin)
      · rw [hnone] at hp
        exact absurd hp (by simp)
      · obtain rfl : n = n' := List.inj_on_of_nodup_map (by decide : (ownedTrees.map fun n => Index.kind (.tree n)).Nodup)
          hn hn' hk
        exact not_lt.mpr hle (Tables.find_inj hlinked hkey hkey' ▸ hlt)
      · exact hne hin.1
      · exact hne' hin.1
      · exact hne'' hin.1

/-! ### Whole lives -/

/-- What happens to the tables and the buffers: any of them may be applied or freed. -/
inductive LifeAction (F : Type)
  | act (a : Action F)
  | applyUndo (n : ℕ) (h : HashOrder)
  | freeUndo (n : ℕ) (h : HashOrder)

/-- Warehouses that are inserted have an id. -/
def LifeAction.Numbered : LifeAction F → Prop
  | act (.insert i) => i.Numbered
  | _ => True

/-- The new-order rows that the buffers hold. -/
def held (us : List (TPCCUndo F)) : List Ptr := us.flatMap fun u => u.deleted .newOrder

/-- Every row is accounted for, and the buffers are about rows linked as they were. -/
structure Life (s : Tables F × List (TPCCUndo F)) : Prop where
  accounted : Accounted s.1 (held s.2)
  images : ∀ u ∈ s.2, Images u s.1

theorem held_eraseIdx {us : List (TPCCUndo F)} {i : ℕ} (h : us[i]? = some u) :
    (held us).Perm (u.deleted .newOrder ++ held (us.eraseIdx i)) := by
  obtain ⟨hi, rfl⟩ := List.getElem?_eq_some_iff.mp h
  exact (List.getElem_cons_eraseIdx_perm hi).symm.flatMap_right _

/-- A buffer is done with. -/
theorem Life.done {us : List (TPCCUndo F)} {i : ℕ} (h : Life (t, us)) (hi : us[i]? = some u)
    (hacc : Accounted t (u.deleted .newOrder ++ held (us.eraseIdx i)) → Accounted t' (held (us.eraseIdx i)) ∧ Evolves t t') :
    Life (t', us.eraseIdx i) := by
  obtain ⟨hacc', hevolves⟩ := hacc (h.accounted.perm (held_eraseIdx hi))
  exact ⟨hacc', fun u' hu' => (h.images u' (List.mem_of_mem_eraseIdx hu')).evolves hevolves⟩

variable [Money F]

/-- Do it. -/
def LifeAction.step (s : Tables F × List (TPCCUndo F)) : LifeAction F → Option (Tables F × List (TPCCUndo F))
  | act a => a.step s
  | applyUndo i h => s.2[i]?.bind fun u => (Op.applyUndo h u s.1).map fun r => (r.2, s.2.eraseIdx i)
  | freeUndo i h => s.2[i]?.bind fun u => (Op.freeUndo h u s.1).map fun r => (r.2, s.2.eraseIdx i)

/-- **A step loses no row.** -/
theorem Life.step {s s' : Tables F × List (TPCCUndo F)} (h : Life s) {a : LifeAction F} (ha : a.Numbered)
    (hstep : a.step s = some s') : Life s' := by
  obtain ⟨t, us⟩ := s
  have hundo : ∀ {i : ℕ} {u : TPCCUndo F} {order : HashOrder} {t' : Tables F}, us[i]? = some u →
      Op.applyUndo order u t = some ((), t') → Life (t', us.eraseIdx i) := by
    intro i u order t' hi hrun
    have hu := h.images u (List.mem_of_getElem? hi)
    exact h.done hi fun hacc => ⟨hacc.applyUndo hu hrun, applyUndo_evolves hu hrun⟩
  cases a with
  | act a =>
    cases a with
    | insert i =>
      obtain ⟨r, hrun, rfl⟩ := Option.map_eq_some_iff.mp hstep
      exact ⟨h.accounted.insertion ha hrun, fun u hu => (h.images u hu).evolves (Insertion.grows hrun).evolves⟩
    | commit free x =>
      obtain ⟨r, hrun, rfl⟩ := Option.map_eq_some_iff.mp hstep
      refine ⟨h.accounted.commit x.journaled hrun, fun u hu => (h.images u hu).evolves ?_⟩
      exact x.journaled.commit_evolves h.accounted.owned.linked hrun
    | execute x =>
      obtain ⟨r, hrun, rfl⟩ := Option.map_eq_some_iff.mp hstep
      obtain ⟨o, c', ho, -, hj, -⟩ := Txn.exec_own_eq_some h.accounted.owned.linked (c := r.2) hrun
      have hb : r.2.buffer = o := by
        rw [Call.buffer, ho]
        rfl
      show Life (r.2.tables, r.2.buffer.toList ++ us)
      rw [hb]
      refine ⟨?_, fun u hu => ?_⟩
      · have hacc := h.accounted.journals hj
        cases o with
        | none => exact hacc
        | some u => exact hacc
      · rcases List.mem_append.mp hu with hu | hu
        · rw [Option.mem_toList] at hu
          obtain rfl := hu
          exact hj.images
        · exact (h.images u hu).evolves hj.evolves
    | applyUndo order =>
      cases us with
      | nil => exact absurd hstep (by simp [LifeAction.step, Action.step])
      | cons u us =>
        obtain ⟨r, hrun, rfl⟩ := Option.map_eq_some_iff.mp hstep
        exact hundo (i := 0) rfl hrun
  | applyUndo i order =>
    obtain ⟨u, hi, hstep⟩ := Option.bind_eq_some_iff.mp hstep
    obtain ⟨r, hrun, rfl⟩ := Option.map_eq_some_iff.mp hstep
    exact hundo hi hrun
  | freeUndo i order =>
    obtain ⟨u, hi, hstep⟩ := Option.bind_eq_some_iff.mp hstep
    obtain ⟨r, hrun, rfl⟩ := Option.map_eq_some_iff.mp hstep
    refine h.done hi fun hacc => ?_
    obtain ⟨t₁, hrun', hacc', hevolves, -⟩ := hacc.freeUndo order
    obtain rfl := (Prod.mk.inj (Option.some.inj (hrun'.symm.trans hrun))).2
    exact ⟨hacc', hevolves⟩

/-- A life loses no row. -/
theorem Life.run {as : List (LifeAction F)} (has : ∀ a ∈ as, a.Numbered) {s : Tables F × List (TPCCUndo F)}
    (hrun : Run.result LifeAction.step (Tables.empty, []) as = some s) : Life s := by
  induction as using List.reverseRecOn generalizing s with
  | nil =>
    obtain rfl := Option.some.inj hrun
    exact ⟨Accounted.empty, fun _ hu => absurd hu List.not_mem_nil⟩
  | append_singleton as a ih =>
    rw [Run.result_snoc] at hrun
    obtain ⟨s₁, h₁, hstep⟩ := Option.bind_eq_some_iff.mp hrun
    have hall := ih (fun a ha => has a (List.mem_append_left _ ha)) h₁
    exact hall.step (has a (List.mem_append_right _ (List.mem_singleton_self a))) hstep

omit [Money F] in
/-- The buffers that are left are freed. -/
theorem Accounted.freeAll {us : List (TPCCUndo F)} (h : Accounted t (held us)) (order : HashOrder) :
    ∃ t', us.forM (Op.freeUndo order) t = some ((), t') ∧ Accounted t' [] ∧ t'.store.index = t.store.index := by
  induction us generalizing t with
  | nil => exact ⟨t, rfl, h, rfl⟩
  | cons u us ih =>
    obtain ⟨t₁, hrun₁, hacc₁, -, hindex₁⟩ := Accounted.freeUndo h order
    obtain ⟨t₂, hrun₂, hacc₂, hindex₂⟩ := ih hacc₁
    refine ⟨t₂, ?_, hacc₂, hindex₂.trans hindex₁⟩
    rw [forM_cons_apply, hrun₁]
    exact hrun₂

/-- **No row is lost, and none is freed twice**: whatever is inserted, committed, undone and freed, in whichever
order, every row has one owner. When the last buffers are freed and the destructor has run, no row is left, but
for one with the largest key in its tree. -/
theorem life_freed {as : List (LifeAction F)} (has : ∀ a ∈ as, a.Numbered) {us : List (TPCCUndo F)}
    (hrun : Run.result LifeAction.step (Tables.empty, []) as = some (t, us)) (order : HashOrder) :
    Accounted t (held us) ∧
      ∃ t₁ t₂, us.forM (Op.freeUndo order) t = some ((), t₁) ∧ Op.destruct t₁ = some ((), t₂) ∧
        ∀ k p, (t₂.cell k p).isSome ↔ ∃ n ∈ ownedTrees, k = Index.kind (.tree n) ∧
          ∃ key, (t.tree n).find key = some p ∧ int32Max ≤ key := by
  have hacc := (Life.run has hrun).accounted
  obtain ⟨t₁, hrun₁, hacc₁, hindex⟩ := hacc.freeAll order
  obtain ⟨t₂, hrun₂, hleft⟩ := hacc₁.destruct
  refine ⟨hacc, t₁, t₂, hrun₁, hrun₂, fun k p => (hleft k p).trans ?_⟩
  refine exists_congr fun n => and_congr_right fun _ => and_congr_right fun _ => exists_congr fun key => ?_
  rw [← Tables.index_tree, ← Tables.index_tree, hindex]

/-- An order is placed and delivered, and the buffer of the order is freed first. -/
def smallLife : List (LifeAction ℚ) :=
  smallDatabase.map (fun i => .act (.insert i)) ++
    [.act (.execute smallOrder), .act (.execute smallDelivery), .freeUndo 1 .asInserted]

theorem life_freed_small :
    ∃ t us t₁ t₂, Run.result LifeAction.step (Tables.empty, []) smallLife = some (t, us) ∧ (held us).length = 1 ∧
      us.forM (Op.freeUndo .asInserted) t = some ((), t₁) ∧ Op.destruct t₁ = some ((), t₂) ∧
        ∀ k p, (t₂.cell k p).isSome ↔ ∃ n ∈ ownedTrees, k = Index.kind (.tree n) ∧
          ∃ key, (t.tree n).find key = some p ∧ int32Max ≤ key := by
  have hrun : (Run.result LifeAction.step (Tables.empty, []) smallLife).map (fun s => (held s.2).length) = some 1 := by
    decide +kernel
  obtain ⟨⟨t, us⟩, hrun, hheld⟩ := Option.map_eq_some_iff.mp hrun
  have hnumbered : ∀ a ∈ smallLife, a.Numbered := by
    simp [smallLife, smallDatabase, LifeAction.Numbered, Insertion.Numbered]
  obtain ⟨-, t₁, t₂, hfree, hdestruct, hleft⟩ := life_freed hnumbered hrun .asInserted
  exact ⟨t, us, t₁, t₂, hrun, hheld, hfree, hdestruct, hleft⟩

end TpccBench
