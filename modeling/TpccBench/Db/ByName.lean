import TpccBench.Db.Payment
import TpccBench.Tables.ByName

/-!
# Lookups by name after other transactions

No transaction changes a customer's ids or names, nor the order of the customers. So a lookup
by name finds the same customer before and after (`TpccBench.findCustomerByName_congr`), and a
payment by name is one by the id of the customer that is found
(`TpccBench.paymentByName_commit`).
-/

namespace TpccBench

open Prog Op

variable {F : Type} {t t' : Tables F}

/-! ### The customers in name order -/

/-- A committed transaction does not change their order. -/
theorem Tx.Journaled.commit_customersByName {α : Type} {x : Tx F α} (hx : x.Journaled)
    (ht : t.store.Linked (schema F)) {free : Option HashOrder} {a : α}
    (hrun : x.commit free t = some (a, t')) : t'.customersByName = t.customersByName := by
  have hnull : ∀ a' t₁, x.commit none t = some (a', t₁) → t₁.customersByName = t.customersByName := by
    intro a' t₁ h₁
    obtain ⟨r', hr', heq⟩ := Option.map_eq_some_iff.mp h₁
    have hrel := hx t ht
    rw [hr'] at hrel
    generalize x ⟨t, some none⟩ = r at hrel
    cases hrel with
    | some h =>
      obtain ⟨-, o, -, -, hj, hw, -⟩ := h
      obtain rfl := (Prod.mk.inj heq).2
      exact (congrArg Rest.customersByName hw.rest).trans hj.customersByName
  cases free with
  | none => exact hnull a t' hrun
  | some h =>
    have hrel := hx.commit ht h
    rw [hrun] at hrel
    cases hnone : x.commit none t with
    | none =>
      rw [hnone] at hrel
      nomatch hrel
    | some r =>
      rw [hnone] at hrel
      cases hrel with
      | some h => exact (congrArg Rest.customersByName h.2.2).trans (hnull r.1 r.2 hnone)

/-- A customer in name order is the row with its ids. -/
theorem Tables.Sound.row_of_named (h : t.Sound) {p : Ptr} (hp : p ∈ t.customersByName) {c : Customer F}
    (hc : t.store.cell .customer p = some c) :
    t.db.row .customer (c.cWId, c.cDId, c.cId) = some c := by
  obtain ⟨key, hkey⟩ := h.named p hp
  obtain ⟨c', hc', hkey'⟩ := h.toWellFormed.customer hkey
  obtain rfl := Option.some.inj (hc.symm.trans hc')
  have hprim : primary .customer (c.cWId, c.cDId, c.cId) = some (.tree .customers, key) := by
    rw [primary, hkey']
    rfl
  have hlook : t.lookup .customer (c.cWId, c.cDId, c.cId) = some p :=
    (Tables.lookup_of_primary (k := .customer) hprim).trans hkey
  exact (Tables.row_of_lookup_eq_some hlook).trans hc

/-- A customer that lives on keeps its ids. -/
theorem Evolves.customer (h : Evolves t t') (ht : t.Sound) {p : Ptr}
    (hp : ∃ key, t.store.index (.tree .customers) key = some p) {c' : Customer F} (hc' : t'.store.cell .customer p = some c') :
    ∃ c : Customer F, t.store.cell .customer p = some c ∧
      (c'.cWId, c'.cDId, c'.cId) = (c.cWId, c.cDId, c.cId) := by
  obtain ⟨key, hkey⟩ := hp
  obtain ⟨c₁, hc₁, hkey₁⟩ := ht.toWellFormed.customer hkey
  obtain ⟨c, hc, hlinks⟩ := h.links (lt_next_of_live (Option.isSome_iff_exists.mpr ⟨c₁, hc₁⟩)) hc'
  obtain rfl := Option.some.inj (hc.symm.trans hc₁)
  rw [rowLinks, rowLinks, hkey₁, Option.map_some] at hlinks
  obtain ⟨key', hkey', heq⟩ := Option.map_eq_some_iff.mp hlinks
  obtain rfl : key' = key := by simpa using heq
  obtain ⟨hw, hd, hi⟩ := makeCustomerKey_inj hkey' hkey₁
  exact ⟨c, hc, by rw [hw, hd, hi]⟩

/-- **The names stay**, where rows keep their links and customers their names. -/
theorem Evolves.names_eq (h : Evolves t t') (ht : t.Sound) (ht' : t'.Sound)
    (hlist : t'.customersByName = t.customersByName)
    (hrow : ∀ id, (t'.db.row .customer id).map nameKey = (t.db.row .customer id).map nameKey) :
    t'.names = t.names := by
  refine Tables.names_congr hlist fun p hp => ?_
  have hp' : p ∈ t'.customersByName := hlist ▸ hp
  obtain ⟨c', hc'⟩ := Option.isSome_iff_exists.mp (ht'.customersByName p hp')
  obtain ⟨c, hc, hids⟩ := h.customer ht (ht.named p hp) hc'
  have hrow := hrow (c.cWId, c.cDId, c.cId)
  rw [ht.row_of_named hp hc, ← hids, ht'.row_of_named hp' hc'] at hrow
  exact (congrArg (Option.map nameKey) hc').trans
    (hrow.trans (congrArg (Option.map nameKey) hc).symm)

/-- **Lookups by name** find the same where the names are the same. -/
theorem Op.findCustomerByName_congr (h : t.WellFormed) (h' : t'.WellFormed) (hnames : t'.names = t.names)
    {w d : ℤ} {cLast : List Char} {p : Option Ptr} (hrun : findCustomerByName w d cLast t = some (p, t)) :
    findCustomerByName w d cLast t' = some (p, t') := by
  have hby : Sim (fun s s' => s = t ∧ s' = t') (byName (F := F)) byName fun l l' s s' =>
      l = l' ∧ s = t ∧ s' = t' := by
    rintro s s' ⟨rfl, rfl⟩
    rw [byName_apply h, byName_apply h', hnames]
    exact Option.Rel.some ⟨rfl, rfl, rfl⟩
  -- what comes after `byName` does not look at the tables
  have hsim : Sim (fun s s' => s = t ∧ s' = t') (findCustomerByName (F := F) w d cLast)
      (findCustomerByName w d cLast) fun a b s s' => a = b ∧ s = t ∧ s' = t' := by
    rw [findCustomerByName]
    refine (Sim.assert fun _ _ _ => Iff.rfl).bind_eq fun _ => Sim.of_fact fun _ => ?_
    refine hby.bind_eq fun l => ?_
    refine (Sim.assert fun _ _ _ => Iff.rfl).bind_eq fun _ => Sim.of_fact fun _ => ?_
    refine (Sim.assert fun _ _ _ => Iff.rfl).bind_eq fun _ => Sim.of_fact fun _ => ?_
    refine Sim.bind_eq (Sim.foldlM (I := fun _ s s' => s = t ∧ s' = t') (fun _ _ _ => ?_) _ _) fun r => ?_
    · refine (Sim.assert fun _ _ _ => Iff.rfl).bind_eq fun _ => Sim.of_fact fun _ => ?_
      exact Sim.pure fun _ _ hP => ⟨rfl, hP⟩
    · refine (Sim.assert fun _ _ _ => Iff.rfl).bind_eq fun _ => Sim.of_fact fun _ => ?_
      exact Sim.pure fun _ _ hP => ⟨rfl, hP⟩
  have hrel := hsim t t' ⟨rfl, rfl⟩
  rw [hrun] at hrel
  cases hrun' : findCustomerByName w d cLast t' with
  | none =>
    rw [hrun'] at hrel
    cases hrel
  | some r =>
    rw [hrun'] at hrel
    cases hrel with
    | some hr =>
      obtain ⟨p', t₁⟩ := r
      obtain ⟨rfl, -, rfl⟩ : p = p' ∧ t = t ∧ t₁ = t' := hr
      rfl

/-! ### Payments by name -/

/-- How a payment chooses its customer. -/
inductive CustomerChoice
  | id (cId : ℤ)
  | lastName (cLast : List Char)

/-- The id of the customer that is chosen. -/
def CustomerChoice.Chooses (cW cD : ℤ) (t : Tables F) (c : ℤ) : CustomerChoice → Prop
  | id cId => c = cId
  | lastName cLast => ∃ p cust, findCustomerByName cW cD cLast t = some (some p, t) ∧
      t.cell .customer p = some cust ∧ cust.cId = c

/-- A customer that is found by name is found by its id. -/
theorem Op.findCustomer_of_named (ht : t.Sound) {w d : ℤ} {cLast : List Char} {p : Ptr}
    {cust : Customer F} (hfind : findCustomerByName w d cLast t = some (some p, t))
    (hcell : t.cell .customer p = some cust) : findCustomer w d cust.cId t = some (some p, t) := by
  obtain ⟨-, q, cust', hq, hcust', hlook⟩ := findCustomerByName_of_sound ht hfind
  obtain rfl := Option.some.inj hq
  obtain rfl := Option.some.inj (hcell.symm.trans hcust')
  exact (Shows.findCustomer_finds w d cust.cId).of_lookup hlook

theorem findCustomer_tx_of_byName (ht : t.Sound) {w d : ℤ} {cLast : List Char} {p : Ptr}
    {cust : Customer F} (hfind : findCustomerByName w d cLast t = some (some p, t))
    (hcell : t.cell .customer p = some cust) (undo : Option (Option (TPCCUndo F))) :
    (findCustomer w d cust.cId).tx ⟨t, undo⟩ = some (some p, (⟨t, undo⟩ : Call F)) := by
  rw [Op.tx_apply, findCustomer_of_named ht hfind hcell]
  rfl

variable [Money F]

/-- `payment`, either overload. -/
def CustomerChoice.payment (w d cW cD : ℤ) (hAmount : F) (now : List Char) :
    CustomerChoice → Tx F (PaymentOutput F)
  | id cId => Tx.payment w d cW cD cId hAmount now
  | lastName cLast => Tx.paymentByName w d cW cD cLast hAmount now

/-- `paymentRemote`, either overload. -/
def CustomerChoice.paymentRemote (w d cW cD : ℤ) (hAmount : F) (output : PaymentOutput F) :
    CustomerChoice → Tx F (PaymentOutput F)
  | id cId => Tx.paymentRemote w d cW cD cId hAmount output
  | lastName cLast => Tx.paymentRemoteByName w d cW cD cLast hAmount output

omit [Money F] in
theorem Tx.commit_congr {α : Type} {x y : Tx F α} (h : ∀ undo, x ⟨t, undo⟩ = y ⟨t, undo⟩)
    (free : Option HashOrder) : x.commit free t = y.commit free t := by
  cases free with
  | none => rw [Tx.commit, Tx.commit, h]
  | some o => rw [Tx.commit, Tx.commit, h]

variable {who : CustomerChoice} {w d cW cD c : ℤ} {hAmount : F}

/-- **A payment** is one by the id of its customer. -/
theorem CustomerChoice.Chooses.payment_commit (ht : t.Sound) (hwho : who.Chooses cW cD t c)
    (now : List Char) (free : Option HashOrder) :
    (who.payment w d cW cD hAmount now).commit free t =
      (Tx.payment w d cW cD c hAmount now).commit free t := by
  cases who with
  | id cId =>
    obtain rfl : c = cId := hwho
    rfl
  | lastName cLast =>
    obtain ⟨p, cust, hfind, hcell, rfl⟩ := hwho
    refine Tx.commit_congr (fun undo => ?_) free
    have hderef : (deref .customer (some p)).tx ⟨t, undo⟩ = some (cust, (⟨t, undo⟩ : Call F)) := by
      rw [Op.tx_apply, Op.deref_apply]
      exact congrArg (Option.map _) (Option.map_eq_some_iff.mpr ⟨cust, hcell, rfl⟩)
    have hpay : Tx.payment w d cW cD cust.cId hAmount now ⟨t, undo⟩ =
        (Tx.paymentHome w d cW cD cust.cId hAmount now ⟨t, undo⟩).bind fun r =>
          Tx.internalPaymentRemote w d (some p) hAmount r.1 r.2 := by
      rw [Tx.payment, bind_apply, findCustomer_tx_of_byName ht hfind hcell]
      rfl
    rw [hpay, CustomerChoice.payment, Tx.paymentByName, bind_apply, Op.tx_apply, hfind, Option.map_some,
      Option.bind_some, bind_apply, hderef, Option.bind_some]
    rfl

theorem CustomerChoice.Chooses.paymentRemote_commit (ht : t.Sound) (hwho : who.Chooses cW cD t c)
    (output : PaymentOutput F) (free : Option HashOrder) :
    (who.paymentRemote w d cW cD hAmount output).commit free t =
      (Tx.paymentRemote w d cW cD c hAmount output).commit free t := by
  cases who with
  | id cId =>
    obtain rfl : c = cId := hwho
    rfl
  | lastName cLast =>
    obtain ⟨p, cust, hfind, hcell, rfl⟩ := hwho
    refine Tx.commit_congr (fun undo => ?_) free
    have hpay : Tx.paymentRemote w d cW cD cust.cId hAmount output ⟨t, undo⟩ =
        (Tx.internalPaymentRemote w d (some p) hAmount output ⟨t, undo⟩).bind fun r =>
          some (Tx.zeroWarehouseDistrict r.1, r.2) := by
      rw [Tx.paymentRemote, bind_apply, findCustomer_tx_of_byName ht hfind hcell]
      rfl
    rw [hpay, CustomerChoice.paymentRemote, Tx.paymentRemoteByName, bind_apply, Op.tx_apply, hfind]
    rfl

omit [Money F] in
/-- The choice stays, where rows keep their links and customers their names. -/
theorem CustomerChoice.Chooses.evolves (hwho : who.Chooses cW cD t c) (h : Evolves t t')
    (ht : t.Sound) (ht' : t'.Sound) (hlist : t'.customersByName = t.customersByName)
    (hrow : ∀ id, (t'.db.row .customer id).map nameKey = (t.db.row .customer id).map nameKey) :
    who.Chooses cW cD t' c := by
  cases who with
  | id cId => exact hwho
  | lastName cLast =>
    obtain ⟨p, cust, hfind, hcell, rfl⟩ := hwho
    have hfind' := findCustomerByName_congr ht.toWellFormed ht'.toWellFormed
      (h.names_eq ht ht' hlist hrow) hfind
    obtain ⟨-, q, cust₀, hq, -, hlook⟩ := findCustomerByName_of_sound ht hfind
    obtain rfl := Option.some.inj hq
    obtain ⟨-, q, cust', hq, hcell', -⟩ := findCustomerByName_of_sound ht' hfind'
    obtain rfl := Option.some.inj hq
    have hindex : ∃ key, t.store.index (.tree .customers) key = some p := by
      obtain ⟨l, hl, hindex⟩ := Option.bind_eq_some_iff.mp hlook
      obtain ⟨key, -, rfl⟩ := Option.map_eq_some_iff.mp hl
      exact ⟨key, hindex⟩
    obtain ⟨cust₁, hcell₁, hids⟩ := h.customer ht hindex hcell'
    obtain rfl := Option.some.inj (hcell.symm.trans hcell₁)
    exact ⟨p, cust', hfind', hcell', (Prod.mk.inj (Prod.mk.inj hids).2).2⟩

end TpccBench
