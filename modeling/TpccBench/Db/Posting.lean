import TpccBench.Db.CreditHistory

/-!
# What a payment puts into the history

A payment writes to rows that are there and inserts one, a history row. Nothing that is found
by its ids or by name is moved by it, nor by undoing it, whenever that is done: all rows but
the history rows keep what they are found by (`TpccBench.Tables.SameRows`).

The payment is followed statement by statement (`TpccBench.Paying`), and what its buffer has
in the end is known then (`TpccBench.Posts`): images of rows that are found where they were,
and the one history row.
-/

namespace TpccBench

open Prog Op

variable {F : Type}

/-! ### What rows are found by -/

/-- What a row is found by: its links, and the name of a customer. -/
def rowLabel : (k : Kind) → Row F k → Option (List (Index × ℤ)) × Option NameKey
  | .customer, c => (rowLinks .customer c, some (nameKey c))
  | k, r => (rowLinks k r, none)

theorem rowLabel_links {k : Kind} {r r' : Row F k} (h : rowLabel k r = rowLabel k r') :
    rowLinks k r = rowLinks k r' := by
  cases k with
  | customer => exact (Prod.mk.inj h).1
  | warehouse | district | stock | order | orderLine | newOrder | history => exact (Prod.mk.inj h).1

theorem rowLabel_nameKey {c c' : Customer F} (h : rowLabel .customer c = rowLabel .customer c') :
    nameKey c = nameKey c' :=
  Option.some.inj (Prod.mk.inj h).2

theorem Index.kind_ne_history (i : Index) : i.kind ≠ .history := by
  cases i with
  | neworders => decide
  | tree n => cases n <;> decide

/-- **All rows are found as they were**, but for the history rows. -/
structure Tables.SameRows (t t' : Tables F) : Prop where
  index : t'.store.index = t.store.index
  names : t'.customersByName = t.customersByName
  label {k : Kind} (hk : k ≠ .history) (p : Ptr) :
    (t'.store.cell k p).map (rowLabel k) = (t.store.cell k p).map (rowLabel k)
  next_le (k : Kind) : t.rest.next k ≤ t'.rest.next k

namespace Tables.SameRows

variable {t t' t'' : Tables F} {k : Kind} {p : Ptr}

theorem refl (t : Tables F) : t.SameRows t := ⟨rfl, rfl, fun _ _ => rfl, fun _ => le_rfl⟩

theorem trans (h : t.SameRows t') (h' : t'.SameRows t'') : t.SameRows t'' where
  index := h'.index.trans h.index
  names := h'.names.trans h.names
  label hk p := (h'.label hk p).trans (h.label hk p)
  next_le k := (h.next_le k).trans (h'.next_le k)

/-- A row is written. -/
theorem write {r r₀ : Row F k} (hcell : t.store.cell k p = some r₀) (hl : rowLabel k r = rowLabel k r₀)
    (hstore : t'.store = t.store.setCell k p (some r)) (hrest : t'.rest = t.rest) : t.SameRows t' where
  index := by rw [hstore, Store.setCell_index]
  names := congrArg Rest.customersByName hrest
  label {k'} _ q := by
    rw [hstore]
    by_cases h : k' = k ∧ q = p
    · obtain ⟨rfl, rfl⟩ := h
      rw [Store.setCell_cell_same, hcell, Option.map_some, Option.map_some, hl]
    · rw [Store.setCell_cell_of_ne _ _ h]
  next_le k' := by rw [hrest]

/-- A history row comes or goes. -/
theorem of_history {r : Option (History F)} (hstore : t'.store = t.store.setCell .history p r)
    (hnames : t'.customersByName = t.customersByName) (hnext : ∀ k, t.rest.next k ≤ t'.rest.next k) :
    t.SameRows t' where
  index := by rw [hstore, Store.setCell_index]
  names := hnames
  label {k'} hk q := by rw [hstore, Store.setCell_cell_of_ne _ _ fun h => hk h.1]
  next_le := hnext

theorem cell_some (h : t.SameRows t') (hk : k ≠ .history) {r : Row F k} (hr : t.store.cell k p = some r) :
    ∃ r', t'.store.cell k p = some r' ∧ rowLabel k r' = rowLabel k r :=
  Option.map_eq_some_iff.mp ((h.label hk p).trans (Option.map_eq_some_iff.mpr ⟨r, hr, rfl⟩))

theorem symm_label (h : t.SameRows t') (hk : k ≠ .history) {r' : Row F k} (hr' : t'.store.cell k p = some r') :
    ∃ r, t.store.cell k p = some r ∧ rowLabel k r = rowLabel k r' :=
  Option.map_eq_some_iff.mp ((h.label hk p).symm.trans (Option.map_eq_some_iff.mpr ⟨r', hr', rfl⟩))

theorem isSome_cell (h : t.SameRows t') (hk : k ≠ .history) (p : Ptr) :
    (t'.store.cell k p).isSome = (t.store.cell k p).isSome := by
  have hlabel := congrArg Option.isSome (h.label hk p)
  rwa [Option.isSome_map, Option.isSome_map] at hlabel

theorem linked (h : t.SameRows t') (hl : t.store.Linked (schema F)) : t'.store.Linked (schema F) := by
  intro l p hp
  rw [h.index] at hp
  obtain ⟨ls, ⟨r, hr, hls⟩, hmem, hall⟩ := hl l p hp
  obtain ⟨r', hr', hlabel⟩ := h.cell_some (Index.kind_ne_history l.1) hr
  refine ⟨ls, ⟨r', hr', (rowLabel_links hlabel).trans hls⟩, hmem, fun l' hl' => ?_⟩
  rw [h.index]
  exact hall l' hl'

/-- **The tables stay sound**, if the history has no row that is not there. -/
theorem sound (h : t.SameRows t') (ht : t.Sound) (hlive : ∀ p ∈ t'.history, (t'.store.cell .history p).isSome) :
    t'.Sound where
  linked := h.linked ht.linked
  customersByName p hp := by
    rw [h.isSome_cell (by decide)]
    exact ht.customersByName p (h.names ▸ hp)
  history := hlive
  named p hp := by
    rw [h.index]
    exact ht.named p (h.names ▸ hp)

/-- Rows are there that were there. -/
theorem isSome_row (h : t.SameRows t') (hk : k ≠ .history) (id : RowId k) :
    (t'.db.row k id).isSome = (t.db.row k id).isSome := by
  rw [Tables.row_eq, Tables.row_eq, Tables.lookup_congr h.index]
  cases t.lookup k id with
  | none => rfl
  | some p => exact h.isSome_cell hk p

theorem nameKey_row (h : t.SameRows t') (id : ℤ × ℤ × ℤ) :
    (t'.db.row .customer id).map nameKey = (t.db.row .customer id).map nameKey := by
  rw [Tables.row_eq, Tables.row_eq, Tables.lookup_congr h.index]
  cases t.lookup .customer id with
  | none => rfl
  | some p =>
    rw [Option.bind_some, Option.bind_some]
    cases hr : t.store.cell .customer p with
    | none =>
      have hnone := h.label (k := .customer) (by decide) p
      rw [hr, Option.map_none, Option.map_eq_none_iff] at hnone
      rw [hnone]
    | some r =>
      obtain ⟨r', hr', hlabel⟩ := h.cell_some (by decide) hr
      rw [hr', Option.map_some, Option.map_some, rowLabel_nameKey hlabel]

/-- No row is relinked, if no history row is there that was taken out. -/
theorem evolves (h : t.SameRows t') (hold : ∀ p < t.rest.next .history,
    t'.store.cell .history p = t.store.cell .history p) : Evolves t t' where
  linked := h.linked
  next_le := h.next_le
  links {k p r'} hp hr' := by
    by_cases hk : k = .history
    · subst hk
      exact ⟨r', (hold p hp).symm.trans hr', rfl⟩
    · obtain ⟨r, hr, hlabel⟩ := h.symm_label hk hr'
      exact ⟨r, hr, (rowLabel_links hlabel).symm⟩

end Tables.SameRows

/-! ### On the way of a payment -/

/-- **What the buffer of a payment has**, before and after: images of rows that are found where
they were, and history rows. -/
structure Posts (t : Tables F) (l : List Ptr) (u : TPCCUndo F) : Prop where
  modified {k : Kind} {e : Ptr × Row F k} : e ∈ u.modified k →
    k ≠ .history ∧ (t.store.cell k e.1).map (rowLabel k) = some (rowLabel k e.2)
  inserted (k : Kind) : u.inserted k = if k = .history then l else []
  deleted (k : Kind) : u.deleted k = []

theorem Posts.empty (t : Tables F) : Posts t [] Log.empty where
  modified h := absurd h List.not_mem_nil
  inserted k := by rw [ite_self]; rfl
  deleted _ := rfl

/-- Rows that are found as they were are found where the images are. -/
theorem Posts.of_same {t t' : Tables F} {l : List Ptr} {u : TPCCUndo F} (h : t.SameRows t') (hu : Posts t' l u) :
    Posts t l u where
  modified he := ⟨(hu.modified he).1, (h.label (hu.modified he).1 _).symm.trans (hu.modified he).2⟩
  inserted := hu.inserted
  deleted := hu.deleted

/-- What `undo` points to, if it is not null. -/
inductive Posts.Var (t : Tables F) : List Ptr → Bool → Option (Option (TPCCUndo F)) → Prop
  | null {l} : Var t l false none
  | unset : Var t [] true (some none)
  | buffer {l u} : Posts t l u → Var t l true (some (some u))

/-- **On the way of a payment** from the tables `t`: the history rows `l` were appended, and those
at `l'` are in the buffer. -/
structure Paying (t : Tables F) (own : Bool) (l : List (Ptr × History F)) (l' : List Ptr) (c : Call F) : Prop where
  same : t.SameRows c.tables
  history : c.tables.history = t.history ++ l.map Prod.fst
  entry {e : Ptr × History F} : e ∈ l → t.rest.next .history ≤ e.1 ∧ e.1 < c.tables.rest.next .history ∧
    c.tables.store.cell .history e.1 = some e.2
  old {p : Ptr} : p ∉ l.map Prod.fst → c.tables.store.cell .history p = t.store.cell .history p
  undo : Posts.Var t l' own c.undo

/-- The pointer leads to the row. -/
def Call.Has (k : Kind) (p : Option Ptr) (r : Row F k) (c : Call F) : Prop :=
  ∃ q, p = some q ∧ c.tables.store.cell k q = some r

namespace Paying

variable {t : Tables F} {own : Bool} {l : List (Ptr × History F)} {l' : List Ptr} {k : Kind} {p : Option Ptr}
  {P : Call F → Prop}

/-- Finding changes nothing. -/
theorem find {id : RowId k} {x : Op F (Option Ptr)} (hx : Shows.FindsRow x k id) :
    Triple P x.tx fun _ => P := by
  intro c hP a c' hrun
  obtain ⟨r, hr, heq⟩ := Option.map_eq_some_iff.mp hrun
  rw [hx] at hr
  split at hr
  · obtain rfl := Option.some.inj hr
    obtain ⟨-, rfl⟩ := Prod.mk.inj heq
    exact hP
  · exact absurd hr (by simp)

/-- Reading changes nothing. -/
theorem deref : Triple P (Op.deref k p).tx fun r c => P c ∧ c.Has k p r := by
  intro c hP r c' hrun
  obtain ⟨s, hs, heq⟩ := Option.map_eq_some_iff.mp hrun
  cases p with
  | none => exact absurd hs (by simp [Op.deref])
  | some q =>
    obtain ⟨r', hr', rfl⟩ := Option.map_eq_some_iff.mp hs
    obtain ⟨rfl, rfl⟩ := Prod.mk.inj heq
    exact ⟨hP, q, rfl, hr'⟩

theorem allocateUndo : Triple (Paying t own l l') Tx.allocateUndo fun _ => Paying t own l l' := by
  intro c h a c' hrun
  obtain ⟨-, rfl⟩ := Prod.mk.inj (Option.some.inj hrun)
  refine ⟨h.same, h.history, h.entry, h.old, ?_⟩
  have hu := h.undo
  generalize c.undo = o at hu
  cases hu with
  | null => exact .null
  | unset => exact .buffer (Posts.empty t)
  | buffer hu => exact .buffer hu

/-- An image is taken of a row. -/
theorem save (hk : k ≠ .history) : Triple (Paying t own l l') (Tx.save k p) fun _ => Paying t own l l' := by
  intro c h a c' hrun
  have hu := h.undo
  rw [Tx.save] at hrun
  obtain ⟨tables, o⟩ := c
  cases hu with
  | null =>
    obtain ⟨-, rfl⟩ := Prod.mk.inj (Option.some.inj hrun)
    exact h
  | unset => exact absurd hrun (by simp)
  | @buffer _ u hu =>
    obtain ⟨q, -, hrun⟩ := Option.bind_eq_some_iff.mp hrun
    obtain ⟨r, hr, heq⟩ := Option.map_eq_some_iff.mp hrun
    obtain ⟨-, rfl⟩ := Prod.mk.inj heq
    refine ⟨h.same, h.history, h.entry, h.old, .buffer ⟨fun {k' e} he => ?_, fun k' => ?_, fun k' => ?_⟩⟩
    · rcases Log.mem_save.mp he with he | ⟨-, heq⟩
      · exact hu.modified he
      · cases heq
        exact ⟨hk, (h.same.label hk _).symm.trans (Option.map_eq_some_iff.mpr ⟨_, hr, rfl⟩)⟩
    · rw [Log.save_inserted]
      exact hu.inserted k'
    · rw [Log.save_deleted]
      exact hu.deleted k'

/-- **A row is written**, and is found as before. -/
theorem assign (hk : k ≠ .history) {r r₀ : Row F k} (hl : rowLabel k r = rowLabel k r₀) :
    Triple (fun c => Paying t own l l' c ∧ c.Has k p r₀) (Op.assign k p r).tx fun _ => Paying t own l l' := by
  rintro c ⟨h, q, rfl, hq⟩ a c' hrun
  obtain ⟨s, hs, heq⟩ := Option.map_eq_some_iff.mp hrun
  obtain ⟨t', hrun', hstore, hrest⟩ := Op.assign_of_live c.tables (by rw [hq]; rfl) r
  obtain rfl := Option.some.inj (hrun'.symm.trans hs)
  obtain ⟨-, rfl⟩ := Prod.mk.inj heq
  have hcell : t'.store.cell .history = c.tables.store.cell .history := by
    rw [hstore]
    funext p'
    rw [Store.setCell_cell_of_ne _ _ fun h => hk h.1.symm]
  refine ⟨h.same.trans (.write hq hl hstore hrest), ?_, fun {e} he => ?_, fun {p'} hp => ?_, h.undo⟩
  · exact (congrArg Rest.history hrest).trans h.history
  · rw [hcell, hrest]
    exact h.entry he
  · rw [hcell]
    exact h.old hp

/-- **The history row is appended.** -/
theorem insertHistory (e : History F) :
    Triple (Paying t own [] []) (Op.insertHistory e).tx fun p => Paying t own [(p, e)] [] := by
  intro c h p c' hrun
  obtain ⟨s, hs, heq⟩ := Option.map_eq_some_iff.mp hrun
  obtain ⟨t', hrun', hstore, hrest⟩ := Op.insertHistory_apply c.tables e
  obtain rfl := Option.some.inj (hrun'.symm.trans hs)
  obtain ⟨rfl, rfl⟩ := Prod.mk.inj heq
  have hnext : ∀ k, c.tables.rest.next k ≤ t'.rest.next k := fun k => by
    rw [hrest]
    exact c.tables.rest.next_le_bump .history k
  refine ⟨h.same.trans (.of_history hstore (congrArg Rest.customersByName hrest) hnext), ?_, fun {e'} he => ?_,
    fun {p'} hp => ?_, h.undo⟩
  · have hhist : t'.history = c.tables.history ++ [c.tables.rest.next .history] := congrArg Rest.history hrest
    rw [hhist, h.history, List.map_nil, List.append_nil]
    rfl
  · obtain rfl := List.mem_singleton.mp he
    refine ⟨h.same.next_le .history, ?_, ?_⟩
    · rw [hrest]
      simp [Rest.bump]
    · rw [hstore, Store.setCell_cell_same]
  · have hne : p' ≠ c.tables.rest.next .history := by simpa using hp
    rw [hstore, Store.setCell_cell_of_ne _ _ fun h => hne h.2]
    exact h.old List.not_mem_nil

/-- It is put in the buffer. -/
theorem inserted {q : Ptr} : Triple (Paying t own l []) (Tx.inserted .history q) fun _ => Paying t own l [q] := by
  intro c h a c' hrun
  have hu := h.undo
  rw [Tx.inserted] at hrun
  obtain ⟨tables, o⟩ := c
  cases hu with
  | null =>
    obtain ⟨-, rfl⟩ := Prod.mk.inj (Option.some.inj hrun)
    exact ⟨h.same, h.history, h.entry, h.old, .null⟩
  | unset => exact absurd hrun (by simp)
  | @buffer _ u hu =>
    have hnil : u.inserted .history = [] := hu.inserted .history
    have hout : q ∉ u.inserted .history := by rw [hnil]; exact List.not_mem_nil
    have hins : (if q ∈ u.inserted .history then none
        else some ((), (⟨tables, some (some (u.insert .history q))⟩ : Call F))) = some (a, c') := hrun
    rw [if_neg hout] at hins
    obtain ⟨-, rfl⟩ := Prod.mk.inj (Option.some.inj hins)
    refine ⟨h.same, h.history, h.entry, h.old, .buffer ⟨hu.modified, fun k' => ?_, hu.deleted⟩⟩
    by_cases hk : k' = .history
    · rw [if_pos hk, hk, Log.insert_inserted_same, hnil, List.nil_append]
    · rw [if_neg hk, Log.insert_inserted_of_ne _ _ hk, hu.inserted, if_neg hk]

end Paying

/-! ### Payments -/

variable [Money F]

/-- **The history row of a payment.** -/
inductive Txn.Records : Txn F → History F → Prop
  | paymentHome {w d cW cD c hAmount now hDate ware dist} : CString.strcpy datetimeSize now = some hDate →
    Records (.paymentHome w d cW cD c hAmount now) (.paid w d cW cD c hAmount hDate ware dist)
  | payment {w d cW cD c hAmount now hDate ware dist} : CString.strcpy datetimeSize now = some hDate →
    Records (.payment w d cW cD c hAmount now) (.paid w d cW cD c hAmount hDate ware dist)
  | paymentByName {w d cW cD c cLast hAmount now hDate ware dist} : CString.strcpy datetimeSize now = some hDate →
    Records (.paymentByName w d cW cD cLast hAmount now) (.paid w d cW cD c hAmount hDate ware dist)

variable {t : Tables F} {own : Bool}

/-- **`paymentHome`** appends its row. -/
theorem paymentHome_posts (w d cW cD c : ℤ) (hAmount : F) (now : List Char) :
    Triple (Paying t own [] []) (Tx.paymentHome w d cW cD c hAmount now) fun _ c' => ∃ p hDate ware dist,
      CString.strcpy datetimeSize now = some hDate ∧
        Paying t own [(p, .paid w d cW cD c hAmount hDate ware dist)] [p] c' := by
  rw [Tx.paymentHome]
  refine (Paying.find (Shows.findWarehouse_finds _)).bind fun wp => Paying.allocateUndo.bind fun _ => ?_
  refine (Paying.save (by simp)).bind fun _ => Paying.deref.bind fun ware => ?_
  refine (Paying.assign (k := .warehouse) (by decide) ?_).bind fun _ => ?_
  · rfl
  refine (Paying.find (Shows.findDistrict_finds _ _)).bind fun dp => (Paying.save (by simp)).bind fun _ => ?_
  refine Paying.deref.bind fun dist => (Paying.assign (k := .district) (by decide) ?_).bind fun _ => ?_
  · rfl
  refine (Triple.lift _).bind fun hDate => Triple.of_fact fun hdate => ?_
  refine (Triple.lift _).bind fun hData => Triple.of_fact fun hdata => ?_
  refine (Paying.insertHistory _).bind fun p => Paying.inserted.bind fun _ => Triple.pure fun c' h => ?_
  refine ⟨p, hDate, ware, dist, hdate, ?_⟩
  have hdata' : hData = (History.paid w d cW cD c hAmount hDate ware dist).hData :=
    CString.ext (CString.strcpy_eq_some hdata)
  rw [hdata'] at h
  exact h

/-- The part at the warehouse of the customer appends nothing. -/
theorem internalPaymentRemote_posts {l : List (Ptr × History F)} {l' : List Ptr} (w d : ℤ) (c : Option Ptr)
    (hAmount : F) (output : PaymentOutput F) :
    Triple (Paying t own l l') (Tx.internalPaymentRemote w d c hAmount output) fun _ => Paying t own l l' := by
  rw [Tx.internalPaymentRemote]
  refine Paying.allocateUndo.bind fun _ => (Paying.save (by simp)).bind fun _ => Paying.deref.bind fun cust => ?_
  refine (Triple.lift _).bind fun cData => Triple.of_fact fun _ => ?_
  refine (Paying.assign (k := .customer) (by decide) ?_).bind fun _ => Triple.pure fun _ h => h
  rfl

/-- **`payment`** appends one row. -/
theorem payment_posts (w d cW cD c : ℤ) (hAmount : F) (now : List Char) :
    Triple (Paying t own [] []) (Tx.payment w d cW cD c hAmount now) fun _ c' => ∃ p hDate ware dist,
      CString.strcpy datetimeSize now = some hDate ∧
        Paying t own [(p, .paid w d cW cD c hAmount hDate ware dist)] [p] c' := by
  rw [Tx.payment]
  refine (Paying.find (Shows.findCustomer_finds _ _ _)).bind fun q => ?_
  refine (paymentHome_posts w d cW cD c hAmount now).bind fun output => ?_
  rintro c₁ ⟨p, hDate, ware, dist, hdate, h⟩ r c' hrun
  exact ⟨p, hDate, ware, dist, hdate, internalPaymentRemote_posts w d q hAmount output c₁ h r c' hrun⟩

/-- A payment whose rows are there. -/
inductive Txn.Payable (t : Tables F) : Txn F → Prop
  | paymentHome {w d cW cD c hAmount now} : (t.db.row .warehouse w).isSome → (t.db.row .district (w, d)).isSome →
    now.length ≤ datetimeSize → Payable t (.paymentHome w d cW cD c hAmount now)
  | payment {w d cW cD c hAmount now} : (t.db.row .warehouse w).isSome → (t.db.row .district (w, d)).isSome →
    now.length ≤ datetimeSize → (t.db.row .customer (cW, cD, c)).isSome →
    Payable t (.payment w d cW cD c hAmount now)
  | paymentByName {w d cW cD c cLast hAmount now} : (t.db.row .warehouse w).isSome →
    (t.db.row .district (w, d)).isSome → now.length ≤ datetimeSize →
    (CustomerChoice.lastName cLast).Chooses cW cD t c → Payable t (.paymentByName w d cW cD cLast hAmount now)

omit [Money F] in
/-- The customer that is found by name is there. -/
theorem CustomerChoice.Chooses.isSome_row (ht : t.Sound) {cLast : List Char} {w d c : ℤ}
    (h : (lastName cLast).Chooses w d t c) : (t.db.row .customer (w, d, c)).isSome := by
  obtain ⟨p, cust, hfind, hcell, rfl⟩ := h
  obtain ⟨-, q, cust', hq, hcust', hlook⟩ := findCustomerByName_of_sound ht hfind
  obtain rfl := Option.some.inj hq
  obtain rfl := Option.some.inj (hcell.symm.trans hcust')
  rw [Tables.row_of_lookup_eq_some hlook, hcust']
  rfl

omit [Money F] in
/-- The rows of a payment at its home. -/
theorem PaidHome.exists_valid {db : Db F} {w d : ℤ} {now : List Char} (hw : (db.row .warehouse w).isSome)
    (hd : (db.row .district (w, d)).isSome) (hnow : now.length ≤ datetimeSize) :
    ∃ p : PaidHome F, p.Valid w d now db := by
  obtain ⟨ware, hware⟩ := Option.isSome_iff_exists.mp hw
  obtain ⟨dist, hdist⟩ := Option.isSome_iff_exists.mp hd
  exact ⟨⟨ware, dist, ⟨now, hnow⟩⟩, hware, hdist, dif_pos hnow⟩

theorem Db.payment_isSome {db : Db F} (hk : db.Keyed) {w d cW cD c : ℤ} (hAmount : F) {now : List Char}
    (hw : (db.row .warehouse w).isSome) (hd : (db.row .district (w, d)).isSome) (hnow : now.length ≤ datetimeSize)
    (hc : (db.row .customer (cW, cD, c)).isSome) : (Db.payment w d cW cD c hAmount now db).isSome := by
  obtain ⟨p, hp⟩ := PaidHome.exists_valid hw hd hnow
  obtain ⟨cust, hcust⟩ := Option.isSome_iff_exists.mp hc
  obtain ⟨cData, hdata⟩ := Option.isSome_iff_exists.mp (paymentData_isSome hk hcust hd hAmount)
  exact Option.isSome_iff_exists.mpr ⟨_, (Db.payment_iff hk).mpr ⟨p, cust, cData, hp, hcust, hdata, rfl⟩⟩

/-- **A payment whose rows are there ends.** -/
theorem Txn.Payable.isSome (ht : t.Sound) {x : Txn F} (hx : x.Payable t) (own : Bool) :
    (x.reply ⟨t, if own then some none else none⟩).isSome := by
  have hnull : (x.reply ⟨t, none⟩).isSome := by
    have hpay : ∀ {w d cW cD c : ℤ} (hAmount : F) {now : List Char}, (t.db.row .warehouse w).isSome →
        (t.db.row .district (w, d)).isSome → now.length ≤ datetimeSize → (t.db.row .customer (cW, cD, c)).isSome →
        (Tx.payment w d cW cD c hAmount now ⟨t, none⟩).isSome := fun {w d cW cD c} hAmount {now} hw hd hnow hc => by
      rw [rel_isSome (payment_refines w d cW cD c hAmount now _ _ ⟨rfl, ht, rfl, trivial⟩)]
      exact Db.payment_isSome ht.keyed hAmount hw hd hnow hc
    cases hx with
    | @paymentHome w d cW cD c hAmount now hw hd hnow =>
      obtain ⟨p, hp⟩ := PaidHome.exists_valid hw hd hnow
      have hhome : (Tx.paymentHome w d cW cD c hAmount now ⟨t, none⟩).isSome := by
        rw [rel_isSome (paymentHome_refines (E := fun _ => True) w d cW cD c hAmount now _ _ ⟨rfl, ht, rfl, trivial⟩)]
        exact Option.isSome_iff_exists.mpr ⟨_, (Db.paymentHome_iff ht.keyed).mpr ⟨p, hp, rfl⟩⟩
      obtain ⟨r, hr⟩ := Option.isSome_iff_exists.mp hhome
      rw [reply, bind_apply, hr]
      rfl
    | payment hw hd hnow hc =>
      obtain ⟨r, hr⟩ := Option.isSome_iff_exists.mp (hpay _ hw hd hnow hc)
      rw [reply, bind_apply, hr]
      rfl
    | @paymentByName w d cW cD c cLast hAmount now hw hd hnow hwho =>
      have hcommit : (CustomerChoice.payment w d cW cD hAmount now (.lastName cLast)).commit none t =
        (Tx.payment w d cW cD c hAmount now).commit none t := hwho.payment_commit ht now none
      obtain ⟨r, hr⟩ := Option.isSome_iff_exists.mp (hpay hAmount hw hd hnow (hwho.isSome_row ht))
      rw [Tx.commit, Tx.commit, hr] at hcommit
      obtain ⟨r', hr', -⟩ := Option.map_eq_some_iff.mp hcommit
      have hr' : Tx.paymentByName w d cW cD cLast hAmount now ⟨t, none⟩ = some r' := hr'
      rw [reply, bind_apply, hr']
      rfl
  cases own with
  | false => exact hnull
  | true => exact (rel_isSome (x.reply_journaled t ht.linked)).trans hnull

/-- **A payment that ends has appended its row**. -/
theorem Txn.reply_posts {x : Txn F} (hx : x.Payable t) {undo : Option (Option (TPCCUndo F))}
    (hu : Posts.Var t [] own undo) {r : Reply F} {c : Call F} (hrun : x.reply ⟨t, undo⟩ = some (r, c)) :
    ∃ p e, x.Records e ∧ Paying t own [(p, e)] [p] c := by
  have hstart : Paying t own [] [] (⟨t, undo⟩ : Call F) :=
    ⟨.refl t, by simp, fun he => absurd he List.not_mem_nil, fun _ => rfl, hu⟩
  cases hx with
  | @paymentHome w d cW cD c' hAmount now =>
    obtain ⟨output, c₁, hpay, hret⟩ := bind_eq_some hrun
    obtain ⟨-, rfl⟩ := Prod.mk.inj (Option.some.inj hret)
    obtain ⟨p, hDate, ware, dist, hdate, h⟩ := paymentHome_posts w d cW cD c' hAmount now _ hstart _ _ hpay
    exact ⟨p, _, .paymentHome hdate, h⟩
  | @payment w d cW cD c' hAmount now =>
    obtain ⟨output, c₁, hpay, hret⟩ := bind_eq_some hrun
    obtain ⟨-, rfl⟩ := Prod.mk.inj (Option.some.inj hret)
    obtain ⟨p, hDate, ware, dist, hdate, h⟩ := payment_posts w d cW cD c' hAmount now _ hstart _ _ hpay
    exact ⟨p, _, .payment hdate, h⟩
  | @paymentByName w d cW cD c' cLast hAmount now _ _ _ hwho =>
    obtain ⟨output, c₁, hpay, hret⟩ := bind_eq_some hrun
    obtain ⟨-, rfl⟩ := Prod.mk.inj (Option.some.inj hret)
    obtain ⟨q, cust, hfind, -, -⟩ := hwho
    rw [Tx.paymentByName, bind_apply, Op.tx_apply, hfind, Option.map_some, Option.bind_some] at hpay
    obtain ⟨cust', c₂, hread, hpay⟩ := bind_eq_some hpay
    obtain ⟨h, -⟩ := Paying.deref _ hstart _ _ hread
    obtain ⟨output', c₃, hhome, hremote⟩ := bind_eq_some hpay
    obtain ⟨p, hDate, ware, dist, hdate, h⟩ := paymentHome_posts w d cW cD cust'.cId hAmount now _ h _ _ hhome
    exact ⟨p, _, .paymentByName hdate, internalPaymentRemote_posts w d _ hAmount output' _ h _ _ hremote⟩

/-! ### Taking a history row out -/

omit [Money F]

/-- **The history row at `p` is taken out**, and the list of the history is `l` then. -/
structure Tables.TakesOut (t : Tables F) (p : Ptr) (l : List Ptr) (t' : Tables F) : Prop where
  same : t.SameRows t'
  history : t'.history = l
  cell (q : Ptr) : t'.store.cell .history q = if q = p then none else t.store.cell .history q

/-- **`eraseHistory`** takes a row out. -/
theorem eraseHistory_takesOut {p : Ptr} {l : List Ptr} (hfrom : eraseFrom p t.history = some l)
    (hlive : (t.store.cell .history p).isSome) :
    ∃ t', eraseHistory p t = some ((), t') ∧ t.TakesOut p l t' := by
  obtain ⟨t', hrun, hstore, hrest⟩ := eraseHistory_of_live t hfrom hlive
  have hnext : ∀ k, t'.rest.next k = t.rest.next k := fun k => by rw [hrest]
  refine ⟨t', hrun, .of_history hstore (congrArg Rest.customersByName hrest) fun k => (hnext k).ge,
    congrArg Rest.history hrest, fun q => ?_⟩
  rw [hstore]
  by_cases hq : q = p
  · rw [if_pos hq, hq, Store.setCell_cell_same]
  · rw [if_neg hq, Store.setCell_cell_of_ne _ _ fun h => hq h.2]

/-- Rows are written, but no history rows. -/
structure Tables.Rewrites (t t' : Tables F) : Prop where
  same : t.SameRows t'
  rest : t'.rest = t.rest
  cell : t'.store.cell .history = t.store.cell .history

theorem Tables.Rewrites.trans {t t' t'' : Tables F} (h : t.Rewrites t') (h' : t'.Rewrites t'') : t.Rewrites t'' :=
  ⟨h.same.trans h'.same, h'.rest.trans h.rest, h'.cell.trans h.cell⟩

/-- **Restoring** writes rows. -/
theorem restoreFromMap_rewrites {k : Kind} (hk : k ≠ .history) (h : HashOrder) {map : List (Ptr × Row F k)}
    (hmap : ∀ e ∈ map, (t.store.cell k e.1).map (rowLabel k) = some (rowLabel k e.2)) :
    ∃ t', restoreFromMap h k map t = some ((), t') ∧ t.Rewrites t' := by
  have hiter : ∀ e ∈ h.iter _ map, (t.store.cell k e.1).map (rowLabel k) = some (rowLabel k e.2) :=
    fun e he => hmap e ((h.perm _ _).mem_iff.mp he)
  rw [restoreFromMap]
  clear hmap
  generalize h.iter _ map = l at hiter
  induction l generalizing t with
  | nil => exact ⟨t, rfl, .refl t, rfl, rfl⟩
  | cons e l ih =>
    obtain ⟨r, hr, hlabel⟩ := Option.map_eq_some_iff.mp (hiter e List.mem_cons_self)
    obtain ⟨t₁, hrun, hstore, hrest⟩ := assign_of_live t (by rw [hr]; rfl) e.2
    have hw : t.Rewrites t₁ := by
      refine ⟨.write hr hlabel.symm hstore hrest, hrest, ?_⟩
      rw [hstore]
      exact funext fun q => Store.setCell_cell_of_ne _ _ fun h => hk h.1.symm
    obtain ⟨t', hrun', hw'⟩ := ih (t := t₁) fun e' he' =>
      (hw.same.label hk _).trans (hiter e' (List.mem_cons_of_mem _ he'))
    exact ⟨t', by rw [forM_cons_apply, hrun, Option.bind_some, hrun'], hw.trans hw'⟩

theorem HashOrder.iter_nil (h : HashOrder) (α : Type) : h.iter α [] = [] := (h.perm α []).eq_nil

theorem HashOrder.iter_singleton (h : HashOrder) {α : Type} (a : α) : h.iter α [a] = [a] :=
  List.perm_singleton.mp (h.perm α [a])

/-- **To apply the buffer of a payment** takes its history row out, whatever has happened since: the
rows it restores are found where they were. -/
theorem applyUndo_takesOut {t₀ : Tables F} {p : Ptr} {u : TPCCUndo F} (hu : Posts t₀ [p] u) (hsame : t₀.SameRows t)
    {l : List Ptr} (hfrom : eraseFrom p t.history = some l) (hlive : (t.store.cell .history p).isSome)
    (h : HashOrder) : ∃ t', applyUndo h u t = some ((), t') ∧ t.TakesOut p l t' := by
  have hrestore : ∀ k, k ≠ .history → ∀ t₁, t.Rewrites t₁ →
      ∃ t₂, restoreFromMap h k (u.modified k) t₁ = some ((), t₂) ∧ t.Rewrites t₂ := by
    intro k hk t₁ h₁
    obtain ⟨t₂, hrun, h₂⟩ := restoreFromMap_rewrites (t := t₁) hk h fun e he =>
      ((hsame.trans h₁.same).label hk _).trans (hu.modified he).2
    exact ⟨t₂, hrun, h₁.trans h₂⟩
  obtain ⟨t₁, h₁, w₁⟩ := hrestore .warehouse (by decide) t ⟨.refl t, rfl, rfl⟩
  obtain ⟨t₂, h₂, w₂⟩ := hrestore .district (by decide) t₁ w₁
  obtain ⟨t₃, h₃, w₃⟩ := hrestore .customer (by decide) t₂ w₂
  obtain ⟨t₄, h₄, w₄⟩ := hrestore .stock (by decide) t₃ w₃
  obtain ⟨t₅, h₅, w₅⟩ := hrestore .order (by decide) t₄ w₄
  obtain ⟨t₆, h₆, w₆⟩ := hrestore .orderLine (by decide) t₅ w₅
  have hhist : t₆.history = t.history := congrArg Rest.history w₆.rest
  obtain ⟨t', h', out⟩ := eraseHistory_takesOut (t := t₆) (hhist ▸ hfrom) (by rw [w₆.cell]; exact hlive)
  have hnone : ∀ (k : Kind) (erase : Ptr → Op F Unit) s, k ≠ .history →
      eraseTuple h (u.inserted k) erase s = some ((), s) := fun k erase s hk => by
    rw [eraseTuple, hu.inserted, if_neg hk, h.iter_nil]
    rfl
  have hone : eraseTuple h (u.inserted .history) eraseHistory t₆ = some ((), t') := by
    rw [eraseTuple, hu.inserted, if_pos rfl, h.iter_singleton, forM_cons_apply, h', Option.bind_some]
    rfl
  refine ⟨t', ?_, w₆.same.trans out.same, out.history, fun q => ?_⟩
  · simp only [applyUndo, bind_apply, h₁, h₂, h₃, h₄, h₅, h₆, hone, Option.bind_some,
      hnone .order _ _ (by decide), hnone .orderLine _ _ (by decide), hnone .newOrder _ _ (by decide)]
    rw [hu.deleted, h.iter_nil]
    rfl
  · rw [out.cell, w₆.cell]

end TpccBench
