import TpccBench.Db.ByName
import TpccBench.Db.Insertions

/-!
# A payment in two parts

`paymentHome` and `paymentRemote` as two calls with two buffers, in either order, and then
`paymentCombine`, do what `payment` does (`TpccBench.split_payment`). The two parts write
different rows, so they commute; each zeroes what is the other's to report, and the
combiner takes the customer's columns from the one and the addresses from the other.
-/

namespace TpccBench

open Prog

variable {F : Type} [Money F] {t t' : Tables F}

omit [Money F] in
/-- `paymentCombine`. -/
def paymentCombine (remote home : PaymentOutput F) : PaymentOutput F :=
  { home with
    cCreditLim := remote.cCreditLim
    cDiscount := remote.cDiscount
    cBalance := remote.cBalance
    cFirst := remote.cFirst
    cMiddle := remote.cMiddle
    cLast := remote.cLast
    cAddress := remote.cAddress
    cPhone := remote.cPhone
    cSince := remote.cSince
    cCredit := remote.cCredit
    cData := remote.cData }

/-! ### Committing what does not fail -/

omit [Money F] in
/-- **A commit that ends**, because the transaction on the database does. -/
theorem Refines.commit_eq_some {α : Type} {x : Tx F α} {y : Dx F α} (h : Refines x y) (hj : x.Journaled)
    (ht : t.Sound) {a : α} {db : Db F} (hy : y t.db = some (a, db)) (free : Option HashOrder) :
    ∃ t', x.commit free t = some (a, t') ∧ t'.Sound ∧ t'.db = db := by
  have hrel := h.commit hj ht free
  rw [hy] at hrel
  cases hx : x.commit free t with
  | none =>
    rw [hx] at hrel
    nomatch hrel
  | some r =>
    rw [hx] at hrel
    cases hrel with
    | some hr =>
      obtain ⟨rfl, hs, hdb⟩ := hr
      exact ⟨r.2, rfl, hs, hdb⟩

theorem paymentHome_journaled (w d cW cD c : ℤ) (hAmount : F) (now : List Char) :
    (Tx.paymentHome w d cW cD c hAmount now).Journaled :=
  Keeps.journaled (X := Any) (fun _ => (paymentHome_keeps w d cW cD c hAmount now).post
    fun _ _ _ _ h => ⟨h.1, h.2.toOpen⟩) fun _ => trivial

theorem paymentRemote_journaled (w d cW cD c : ℤ) (hAmount : F) (output : PaymentOutput F) :
    (Tx.paymentRemote w d cW cD c hAmount output).Journaled :=
  Keeps.journaled (fun _ => paymentRemote_keeps w d cW cD c hAmount output) fun _ => trivial

theorem payment_journaled (w d cW cD c : ℤ) (hAmount : F) (now : List Char) :
    (Tx.payment w d cW cD c hAmount now).Journaled :=
  Keeps.journaled (fun _ => payment_keeps w d cW cD c hAmount now) fun _ => trivial

/-! ### The two parts -/

variable (who : CustomerChoice) (w d cW cD c : ℤ) (hAmount : F) (now : List Char)
  (output : PaymentOutput F) (free free' : Option HashOrder)

/-- `paymentHome` first. -/
def homeThenRemote : Op F (PaymentOutput F) := do
  let home ← (Tx.paymentHome w d cW cD c hAmount now).commit free
  let remote ← (who.paymentRemote w d cW cD hAmount output).commit free'
  return paymentCombine remote home

/-- `paymentRemote` first. -/
def remoteThenHome : Op F (PaymentOutput F) := do
  let remote ← (who.paymentRemote w d cW cD hAmount output).commit free'
  let home ← (Tx.paymentHome w d cW cD c hAmount now).commit free
  return paymentCombine remote home

variable {who w d cW cD c hAmount now output free free'}

/-- The parts write different rows. -/
theorem PaidHome.apply_setRow_customer (p : PaidHome F) {db : Db F} {id : ℤ × ℤ × ℤ} {r : Option (Customer F)} :
    p.apply w d cW cD c hAmount (db.setRow .customer id r) =
      (p.apply w d cW cD c hAmount db).setRow .customer id r := by
  refine Db.ext rfl (funext fun k => funext fun id' => ?_) rfl
  by_cases hk : k = .customer
  · subst hk
    rw [Db.setRow_row, apply_row_of_ne (by simp), apply_row_of_ne (by simp), Db.setRow_row]
  · rw [Db.setRow_row_of_ne _ hk]
    by_cases hh : k ∈ [Kind.warehouse, .district]
    · rcases List.mem_pair.mp hh with rfl | rfl
      · rw [apply_warehouse, apply_warehouse, Db.setRow_row_of_ne _ hk]
      · rw [apply_district, apply_district, Db.setRow_row_of_ne _ hk]
    · rw [apply_row_of_ne hh, apply_row_of_ne hh, Db.setRow_row_of_ne _ hk]

/-- **A split payment** is the payment: with the warehouse, the district and the customer
there, the parts in either order report what the whole reports and leave the same database. -/
theorem split_payment (ht : t.Sound) (hware : (t.db.row .warehouse w).isSome)
    (hdist : (t.db.row .district (w, d)).isSome) (hcust : (t.db.row .customer (cW, cD, c)).isSome)
    (hwho : who.Chooses cW cD t c) (hnow : now.length ≤ datetimeSize) (free₀ : Option HashOrder) :
    ∃ out t₁ t₂ t₃, (who.payment w d cW cD hAmount now).commit free₀ t = some (out, t₁) ∧
      homeThenRemote who w d cW cD c hAmount now output free free' t = some (out, t₂) ∧
      remoteThenHome who w d cW cD c hAmount now output free free' t = some (out, t₃) ∧
      t₂.db = t₁.db ∧ t₃.db = t₁.db := by
  obtain ⟨ware, hware⟩ := Option.isSome_iff_exists.mp hware
  obtain ⟨dist, hdist'⟩ := Option.isSome_iff_exists.mp hdist
  obtain ⟨cust, hcust⟩ := Option.isSome_iff_exists.mp hcust
  obtain ⟨cData, hdata⟩ := Option.isSome_iff_exists.mp (paymentData_isSome ht.keyed hcust hdist hAmount)
  obtain ⟨hDate, hdate⟩ : ∃ hDate, CString.strcpy datetimeSize now = some hDate := ⟨_, dif_pos hnow⟩
  have hp : PaidHome.Valid ⟨ware, dist, hDate⟩ w d now t.db := ⟨hware, hdist', hdate⟩
  set p : PaidHome F := ⟨ware, dist, hDate⟩
  -- the whole
  obtain ⟨t₁, hrun₁, -, hdb₁⟩ := (payment_refines w d cW cD c hAmount now).commit_eq_some
    (payment_journaled w d cW cD c hAmount now) ht
    ((Db.payment_iff ht.keyed).mpr ⟨p, cust, cData, hp, hcust, hdata, rfl⟩) free₀
  -- the home part first
  obtain ⟨tH, hrunH, hsH, hdbH⟩ := Refines.commit_eq_some (paymentHome_refines w d cW cD c hAmount now)
    (paymentHome_journaled w d cW cD c hAmount now) ht
    ((Db.paymentHome_iff ht.keyed).mpr ⟨p, hp, rfl⟩) free
  have hrowH : tH.db.row .customer = t.db.row .customer := by
    rw [hdbH, PaidHome.apply_row_of_ne (by simp)]
  have hwhoH : who.Chooses cW cD tH c := by
    have hj := paymentHome_journaled w d cW cD c hAmount now
    exact hwho.evolves (hj.commit_evolves ht.linked hrunH) ht hsH
      (hj.commit_customersByName ht.linked hrunH) fun id => by rw [hrowH]
  obtain ⟨t₂, hrun₂, -, hdb₂⟩ := (paymentRemote_refines w d cW cD c hAmount output).commit_eq_some
    (paymentRemote_journaled w d cW cD c hAmount output) hsH
    ((Db.paymentRemote_iff hsH.keyed).mpr ⟨cust, cData, (congrFun hrowH _).trans hcust, hdata, rfl⟩) free'
  -- the remote part first
  obtain ⟨tR, hrunR, hsR, hdbR⟩ := (paymentRemote_refines w d cW cD c hAmount output).commit_eq_some
    (paymentRemote_journaled w d cW cD c hAmount output) ht
    ((Db.paymentRemote_iff ht.keyed).mpr ⟨cust, cData, hcust, hdata, rfl⟩) free'
  have hpR : p.Valid w d now tR.db := by
    rw [hdbR]
    exact ⟨(congrFun (Db.setRow_row_of_ne _ (by simp)) _).trans hware,
      (congrFun (Db.setRow_row_of_ne _ (by simp)) _).trans hdist', hdate⟩
  obtain ⟨t₃, hrun₃, -, hdb₃⟩ := Refines.commit_eq_some (paymentHome_refines w d cW cD c hAmount now)
    (paymentHome_journaled w d cW cD c hAmount now) hsR
    ((Db.paymentHome_iff hsR.keyed).mpr ⟨p, hpR, rfl⟩) free
  refine ⟨_, t₁, t₂, t₃, (hwho.payment_commit ht now free₀).trans hrun₁, ?_, ?_, ?_, ?_⟩
  · rw [homeThenRemote, bind_apply, hrunH, Option.bind_some, bind_apply,
      hwhoH.paymentRemote_commit hsH, hrun₂]
    rfl
  · rw [remoteThenHome, bind_apply, hwho.paymentRemote_commit ht, hrunR, Option.bind_some, bind_apply, hrun₃]
    rfl
  · rw [hdb₂, hdbH, hdb₁]
  · rw [hdb₃, hdbR, hdb₁, PaidHome.apply_setRow_customer]

/-- A buffer with something in it. -/
def usedBuffer : PaymentOutput ℚ :=
  { PaymentOutput.home (F := ℚ) ⟨1, 0, 0, .empty, .zero⟩ ⟨1, 1, 0, 0, 1, .empty, .zero⟩ with cBalance := 7 }

theorem smallTables_byName : (CustomerChoice.lastName []).Chooses 1 1 smallTables 1 := by
  have hfind : (Op.findCustomerByName 1 1 [] smallTables).map Prod.fst = some (some 0) := by
    decide +kernel
  have hcell : (smallTables.cell .customer 0).map Customer.cId = some 1 := by decide +kernel
  obtain ⟨⟨p, t⟩, hrun, hp⟩ := Option.map_eq_some_iff.mp hfind
  obtain rfl : p = some 0 := hp
  obtain ⟨rfl, -⟩ := findCustomerByName_of_sound smallTables_sound hrun
  obtain ⟨cust, hcust, hid⟩ := Option.map_eq_some_iff.mp hcell
  exact ⟨0, cust, hrun, hcust, hid⟩

/-- A payment of the small database's customer, whose last name is empty. -/
theorem split_payment_small : ∃ out t₁ t₂ t₃,
    ((CustomerChoice.lastName []).payment 1 1 1 1 (5 : ℚ) []).commit none smallTables = some (out, t₁) ∧
      homeThenRemote (.lastName []) 1 1 1 1 1 5 [] usedBuffer none none smallTables = some (out, t₂) ∧
      remoteThenHome (.lastName []) 1 1 1 1 1 5 [] usedBuffer none none smallTables = some (out, t₃) ∧
      t₂.db = t₁.db ∧ t₃.db = t₁.db :=
  split_payment smallTables_sound (by decide +kernel) (by decide +kernel) (by decide +kernel)
    smallTables_byName (by decide) none

end TpccBench
