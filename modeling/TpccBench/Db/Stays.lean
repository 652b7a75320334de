import TpccBench.Db.Book
import TpccBench.Db.ByName

/-!
# What stays in a database

No transaction takes out a warehouse, a stock row or a customer, nor changes a name; and in the order book
of a district it adds one order, or none (`TpccBench.Db.Step.book`). So the customers that own an order go on
to own one, and a customer that is found by name is found again after any committed transaction
(`TpccBench.Txn.commit_chooses`): the two indexes over the customers go on to agree
(`TpccBench.Txn.commit_named`).
-/

namespace TpccBench

open Prog Op

variable {F : Type} [Money F]

namespace Db

variable {db db' : Db F} {x : Txn F} {r : Reply F}

theorem Ships.nameKey {w carrierId : ℤ} {now : List Char} {ds : List ℤ} {orders : List DeliveryOrderInfo}
    (h : Ships w carrierId now ds db orders db') (id : ℤ × ℤ × ℤ) :
    (db'.row .customer id).map Op.nameKey = (db.row .customer id).map Op.nameKey := by
  induction h with
  | nil => rfl
  | skip _ _ ih => exact ih
  | ship _ hp _ ih =>
    rw [ih, Shipment.apply_customer]
    split
    · next heq =>
      rw [heq, hp.customer]
      rfl
    · rfl

/-- **No transaction** changes a name. -/
theorem Step.nameKey (h : Step x r db db') (id : ℤ × ℤ × ℤ) :
    (db'.row .customer id).map Op.nameKey = (db.row .customer id).map Op.nameKey := by
  cases h with
  | refuse => rfl
  | place => rw [takeStock_row_of_ne (by decide), Placement.apply_row_of_ne (by decide)]
  | take => rw [takeStock_row_of_ne (by decide)]
  | pay _ _ hcust => exact setRow_nameKey (PaidHome.apply_row_of_ne (by decide)) hcust rfl
  | payHome => rw [PaidHome.apply_customer]
  | payRemote _ hcust => exact setRow_nameKey rfl hcust rfl
  | deliver hships => exact hships.nameKey id

/-- The customers stay. -/
theorem Step.customer (h : Step x r db db') (id : ℤ × ℤ × ℤ) :
    (db'.row .customer id).isSome = (db.row .customer id).isSome := by
  have hname := congrArg Option.isSome (h.nameKey id)
  rwa [Option.isSome_map, Option.isSome_map] at hname

/-- The stock rows stay. -/
theorem Step.stock (h : Step x r db db') (id : ℤ × ℤ) :
    (db'.row .stock id).isSome = (db.row .stock id).isSome := by
  have htext := congrArg Option.isSome (h.sameTexts.text id)
  rwa [Option.isSome_map, Option.isSome_map] at htext

/-- The warehouses stay. -/
theorem Step.warehouse (h : Step x r db db') {id : ℤ} (hid : (db.row .warehouse id).isSome) :
    (db'.row .warehouse id).isSome := by
  have hpaid : ∀ {w d cW cD c : ℤ} {hAmount : F} {p : PaidHome F},
      ((p.apply w d cW cD c hAmount db).row .warehouse id).isSome := fun {w d cW cD c hAmount p} => by
    rw [PaidHome.apply_warehouse]
    split
    · rfl
    · exact hid
  cases h with
  | refuse => exact hid
  | place =>
    rw [takeStock_row_of_ne (by decide), Placement.apply_row_of_ne (by decide)]
    exact hid
  | take =>
    rw [takeStock_row_of_ne (by decide)]
    exact hid
  | pay =>
    rw [setRow_row_of_ne _ (by decide)]
    exact hpaid
  | payHome => exact hpaid
  | payRemote =>
    rw [setRow_row_of_ne _ (by decide)]
    exact hid
  | deliver hships =>
    rw [hships.row_of_ne (by decide)]
    exact hid

/-- **What a step does to the book** of a district: it adds an order, or nothing. -/
theorem Step.book (h : Step x r db db') (hk : db.Keyed) {w d : ℤ} (hd : d ∈ Tx.districtIds) :
    (∀ o, db'.book w d o = db.book w d o) ∨
      ∃ (c : ℤ) (items : List NewOrderItem) (p : Placement F w d c items), p.Valid db ∧
        ∀ o, db'.book w d o = if o = p.oId then some (.ofItems db.items c items) else db.book w d o := by
  cases h.at hk w hd with
  | quiet _ hsame => exact Or.inl fun o => hsame.book
  | @place c items p _ _ _ hp hsame => exact Or.inr ⟨c, items, p, hp, fun o => hsame.book.trans (book_place hp)⟩
  | ship _ _ _ hbefore hk₁ hp hafter =>
    exact Or.inl fun o => by rw [hafter.book, book_ship hp hk₁, hbefore.book]

end Db

variable {t t' : Tables F}

/-- **A customer that is found** by name is found again. -/
theorem Txn.commit_chooses (ht : t.Sound) {x : Txn F} {free : Option HashOrder} {r : Reply F}
    (h : x.reply.commit free t = some (r, t')) {who : CustomerChoice} {w d c : ℤ} (hwho : who.Chooses w d t c) :
    who.Chooses w d t' c := by
  obtain ⟨hs, hstep⟩ := Txn.commit_step ht h
  exact hwho.evolves (x.reply_journaled.commit_evolves ht.linked h) ht hs
    (x.reply_journaled.commit_customersByName ht.linked h) hstep.nameKey

/-- **The customers stay in name order**, those that the tree leads to and no others. -/
theorem Txn.commit_named (ht : t.Sound) (hn : t.Named) {x : Txn F} {free : Option HashOrder} {r : Reply F}
    (h : x.reply.commit free t = some (r, t')) : t'.Named := by
  obtain ⟨hs, hstep⟩ := Txn.commit_step ht h
  have he := x.reply_journaled.commit_evolves ht.linked h
  have hlist := x.reply_journaled.commit_customersByName ht.linked h
  have hlook : ∀ {key : ℤ} {p : Ptr} {c : Customer F}, t'.store.index (.tree .customers) key = some p →
      t'.store.cell .customer p = some c → t'.lookup .customer (c.cWId, c.cDId, c.cId) = some p := by
    intro key p c hkey hc
    obtain ⟨c', hc', hprim⟩ := hs.toWellFormed.customer hkey
    obtain rfl := Option.some.inj (hc.symm.trans hc')
    refine (Tables.lookup_of_primary (k := .customer) (l := (.tree .customers, key)) ?_).trans hkey
    rw [primary, hprim]
    rfl
  refine ⟨hs.toWellFormed, ?_, fun p => ⟨hs.named p, ?_⟩⟩
  · rw [he.names_eq ht hs hlist hstep.nameKey]
    exact hn.increasing
  · rintro ⟨key, hkey⟩
    obtain ⟨c', hc', -⟩ := hs.toWellFormed.customer hkey
    have hp := hlook hkey hc'
    have hrow : (t.db.row .customer (c'.cWId, c'.cDId, c'.cId)).isSome := by
      rw [← hstep.customer, Tables.row_of_lookup_eq_some hp, hc']
      rfl
    -- it was linked, so it was in the set, and is
    obtain ⟨c, hc⟩ := Option.isSome_iff_exists.mp hrow
    obtain ⟨q, hq, hqcell⟩ := Tables.lookup_of_row hc
    obtain ⟨l, hl, hidx⟩ := Option.bind_eq_some_iff.mp hq
    obtain ⟨key', -, rfl⟩ := Option.map_eq_some_iff.mp hl
    have hmem : q ∈ t'.customersByName := hlist ▸ (hn.linked q).mpr ⟨key', hidx⟩
    obtain ⟨d, hd⟩ := Option.isSome_iff_exists.mp (hs.toWellFormed.customersByName q hmem)
    obtain ⟨c₀, hc₀, hids⟩ := he.customer ht ⟨key', hidx⟩ hd
    obtain rfl := Option.some.inj (hqcell.symm.trans hc₀)
    have hid : (c.cWId, c.cDId, c.cId) = (c'.cWId, c'.cDId, c'.cId) := ht.keyed.ids hc
    obtain ⟨key₂, hkey₂⟩ := hs.named q hmem
    have hq' := hlook hkey₂ hd
    rw [hids, hid, hp] at hq'
    rwa [Option.some.inj hq']

end TpccBench
