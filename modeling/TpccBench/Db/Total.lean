import TpccBench.Db.Insertions
import TpccBench.Db.NewOrder
import Mathlib.Tactic.NormNum
import Mathlib.Tactic.Ring

/-!
# The total of an order

`newOrder` reports the sum of the amounts of the lines. The total it should report is that
sum less the discount of the customer, with the taxes of the warehouse and of the district
(`TpccBench.fullTotal`): the source adds up the lines and leaves the factors out. So the
total is right where there is nothing to multiply, or the factors cancel.
-/

namespace TpccBench

open Prog

/-! ### What is reported -/

section Reported

variable {F : Type} [Money F]

omit [Money F] in
/-- Combining quantities leaves the total. -/
theorem newOrderCombine_total {qs : List ℤ} {output out : NewOrderOutput F}
    (h : newOrderCombine qs output = some out) : out.total = output.total := by
  obtain ⟨_, -, hmerge⟩ := Option.bind_eq_some_iff.mp h
  obtain ⟨infos, -, hret⟩ := Option.bind_eq_some_iff.mp hmerge
  obtain rfl := Option.some.inj hret
  rfl

namespace Db

variable {db db' : Db F} {w d c : ℤ} {items : List NewOrderItem} {output out : NewOrderOutput F}

omit [Money F] in
theorem newOrderRemotes_total {remotes : List ℤ}
    (h : newOrderRemotes w items remotes output db = some (out, db')) : out.total = output.total := by
  induction remotes generalizing output db with
  | nil =>
    obtain ⟨rfl, -⟩ := Prod.mk.inj (Option.some.inj h)
    rfl
  | cons remote remotes ih =>
    rw [newOrderRemotes, List.foldlM_cons] at h
    obtain ⟨out₁, db₁, hone, hrest⟩ := bind_eq_some h
    obtain ⟨qs, db₂, -, hone⟩ := bind_eq_some hone
    cases qs with
    | none => exact absurd hone (by simp [failure, StateT.failure])
    | some q =>
      obtain ⟨hcombine, -⟩ := lift_eq_some hone
      exact (ih hrest).trans (newOrderCombine_total hcombine)

/-- **The total that `newOrder` reports**: of the amounts of the lines. -/
theorem newOrder_total (hk : db.Keyed) {o : HashOrder} {now : List Char}
    (h : newOrder o w d c items now output db = some ((true, out), db')) :
    ∃ (p : Placement F w d c items) (infos : List (ItemInfo F)), p.Valid db ∧
      db.Reported p.entries infos ∧
        out.total = infos.foldl (fun total info => total + info.olAmount) 0 := by
  rw [newOrder] at h
  obtain ⟨⟨result, out₁⟩, db₁, hhome, hret⟩ := bind_eq_some h
  cases result with
  | false => exact absurd (congrArg (fun r => r.1.1) (Option.some.inj hret)) (by simp)
  | true =>
    obtain ⟨out₂, db₂, hremotes, hret⟩ := bind_eq_some hret
    obtain ⟨heq, -⟩ := Prod.mk.inj (Option.some.inj hret)
    obtain rfl := (Prod.mk.inj heq).2
    rw [newOrderHome] at hhome
    obtain ⟨⟨qs, out₃⟩, db₃, huncombined, hret⟩ := bind_eq_some hhome
    rcases newOrderHomeUncombined_eq_some hk huncombined with
      ⟨rfl, -⟩ | ⟨p, q, rfl, hp, -, hinfos, htotal, -, -⟩
    · exact absurd (congrArg (fun r => r.1.1) (Option.some.inj hret)) (by simp)
    · obtain ⟨combined, db₄, hlift, hret⟩ := bind_eq_some hret
      obtain ⟨hcombine, -⟩ := lift_eq_some hlift
      obtain ⟨heq, -⟩ := Prod.mk.inj (Option.some.inj hret)
      obtain rfl := (Prod.mk.inj heq).2
      refine ⟨p, out₃.items, hp, hinfos, ?_⟩
      rw [newOrderRemotes_total hremotes, newOrderCombine_total hcombine, htotal]

end Db

end Reported

/-! ### Exact amounts -/

/-- The price of an item. -/
def Db.price (db : Db ℚ) (iId : ℤ) : ℚ := (db.items[(iId - 1).toNat]?).elim 0 fun item => item.iPrice

/-- What the lines cost. -/
def Db.subtotal (db : Db ℚ) (items : List NewOrderItem) : ℚ :=
  (items.map fun item => (item.olQuantity : ℚ) * db.price item.iId).sum

/-- The total with discount and taxes. -/
def fullTotal (subtotal : ℚ) (cust : Customer ℚ) (ware : Warehouse ℚ) (dist : District ℚ) : ℚ :=
  subtotal * (1 - cust.cDiscount) * (1 + ware.wTax + dist.dTax)

/-- Nothing is lost when the factors are left out. -/
theorem eq_fullTotal_iff {subtotal : ℚ} {cust : Customer ℚ} {ware : Warehouse ℚ} {dist : District ℚ} :
    subtotal = fullTotal subtotal cust ware dist ↔
      subtotal = 0 ∨ (1 - cust.cDiscount) * (1 + ware.wTax + dist.dTax) = 1 := by
  rw [fullTotal, mul_assoc]
  constructor
  · intro h
    rcases eq_or_ne subtotal 0 with h0 | h0
    · exact Or.inl h0
    · exact Or.inr (mul_left_cancel₀ h0 (h.symm.trans (mul_one _).symm))
  · rintro (h | h)
    · rw [h, zero_mul]
    · rw [h, mul_one]

namespace Db

/-- What is reported adds up to what the lines cost. -/
theorem Reported.total {db : Db ℚ} {w d c : ℤ} {items : List NewOrderItem} {p : Placement ℚ w d c items}
    (hp : p.Valid db) {infos : List (ItemInfo ℚ)} (h : db.Reported p.entries infos) :
    infos.foldl (fun total info => total + info.olAmount) 0 = db.subtotal items := by
  have hall : ∀ {es : List (NewOrderItem × Item ℚ × ItemInfo ℚ)} {infos : List (ItemInfo ℚ)} (total : ℚ),
      List.Forall₂ (fun e info => ∃ s, db.row .stock (e.1.olSupplyWId, e.1.iId) = some s ∧ info = lineInfo s e)
        es infos →
      (∀ e ∈ es, 1 ≤ e.1.iId ∧ db.items[(e.1.iId - 1).toNat]? = some e.2.1) →
      infos.foldl (fun total info => total + info.olAmount) total = total + db.subtotal (es.map Prod.fst) := by
    intro es infos total hinfos htuples
    induction hinfos generalizing total with
    | nil => simp [subtotal]
    | @cons e _ es infos hinfo _ ih =>
      obtain ⟨s, -, rfl⟩ := hinfo
      obtain ⟨he, htuples⟩ := List.forall_mem_cons.mp htuples
      have hprice : db.price e.1.iId = e.2.1.iPrice := by rw [price, he.2]; rfl
      rw [List.foldl_cons, ih _ htuples]
      simp only [subtotal, List.map_cons, List.sum_cons, hprice, lineInfo]
      ring
  have htotal := hall 0 h.forall₂ hp.tuples
  rw [hp.items] at htotal
  rw [htotal, zero_add]

end Db

variable {t t' : Tables ℚ}

/-- **The total is the right one** exactly where nothing is lost when discount and taxes are
left out. -/
theorem total_eq_fullTotal_iff (ht : t.Sound) {o : HashOrder} {w d c : ℤ} {items : List NewOrderItem}
    {now : List Char} {output out : NewOrderOutput ℚ} {free : Option HashOrder}
    (h : (Txn.newOrder o w d c items now output).reply.commit free t = some (.newOrder true out, t')) :
    ∃ cust ware dist, t.db.row .customer (w, d, c) = some cust ∧ t.db.row .warehouse w = some ware ∧
      t.db.row .district (w, d) = some dist ∧
        (out.total = fullTotal (t.db.subtotal items) cust ware dist ↔
          t.db.subtotal items = 0 ∨ (1 - cust.cDiscount) * (1 + ware.wTax + dist.dTax) = 1) := by
  obtain ⟨-, y, hon, hy⟩ := Txn.commit_onDb ht h
  cases hon with
  | newOrder =>
    obtain ⟨⟨result, out'⟩, db₁, hrun, hret⟩ := bind_eq_some hy
    obtain ⟨heq, -⟩ := Prod.mk.inj (Option.some.inj hret)
    obtain ⟨rfl, rfl⟩ := Reply.newOrder.inj heq
    obtain ⟨p, infos, hp, hinfos, htotal⟩ := Db.newOrder_total ht.keyed hrun
    obtain ⟨cust, hcust⟩ := Option.isSome_iff_exists.mp hp.customer
    obtain ⟨ware, hware⟩ := Option.isSome_iff_exists.mp hp.warehouse
    refine ⟨cust, ware, p.dist, hcust, hware, hp.district, ?_⟩
    rw [htotal, hinfos.total hp]
    exact eq_fullTotal_iff

/-- Two items are ordered where the taxes are 0.08 and 0.02, without a discount. -/
def taxedDatabase : List (Insertion ℚ) :=
  [.item ⟨1, 1, 5, .empty, .empty⟩,
    .warehouse ⟨1, 8 / 100, 0, .empty, .zero⟩,
    .stock ⟨1, 1, 50, 0, 0, 0, fun _ => .empty, .empty⟩,
    .district ⟨1, 1, 2 / 100, 0, 1, .empty, .zero⟩,
    .customer ⟨1, 1, 1, 0, 0, 0, 0, 0, 0, .empty, .empty, .empty, .zero, .empty, .empty, .empty,
      .empty⟩]

theorem insertAll_taxedDatabase : (insertAll taxedDatabase Tables.empty).isSome := by decide

def taxedTables : Tables ℚ := ((insertAll taxedDatabase Tables.empty).get insertAll_taxedDatabase).2

theorem taxedTables_sound : taxedTables.Sound :=
  (insertAll_onDb Tables.empty_sound (Option.some_get insertAll_taxedDatabase).symm).1

def taxedOrder : Txn ℚ := .newOrder .asInserted 1 1 1 [⟨1, 1, 2⟩] (List.replicate 14 '0') .new

theorem taxedOrder_run :
    ∃ out t', taxedOrder.reply.commit none taxedTables = some (.newOrder true out, t') ∧ out.total = 10 := by
  have hrun : (taxedOrder.reply.commit none taxedTables).map (fun r => r.1.reported.map NewOrderOutput.total) =
      some (some 10) := by decide +kernel
  obtain ⟨⟨r, t'⟩, hcommit, hreported⟩ := Option.map_eq_some_iff.mp hrun
  obtain ⟨out, hout, htotal⟩ := Option.map_eq_some_iff.mp hreported
  obtain rfl := Reply.reported_eq_some.mp hout
  exact ⟨out, t', hcommit, htotal⟩

theorem total_eq_fullTotal_iff_taxed :
    ∃ out t' cust ware dist, taxedOrder.reply.commit none taxedTables = some (.newOrder true out, t') ∧
      taxedTables.db.row .customer (1, 1, 1) = some cust ∧ taxedTables.db.row .warehouse 1 = some ware ∧
        taxedTables.db.row .district (1, 1) = some dist ∧
          (out.total = fullTotal (taxedTables.db.subtotal [⟨1, 1, 2⟩]) cust ware dist ↔
            taxedTables.db.subtotal [⟨1, 1, 2⟩] = 0 ∨
              (1 - cust.cDiscount) * (1 + ware.wTax + dist.dTax) = 1) := by
  obtain ⟨out, t', hrun, -⟩ := taxedOrder_run
  obtain ⟨cust, ware, dist, h⟩ := total_eq_fullTotal_iff taxedTables_sound hrun
  exact ⟨out, t', cust, ware, dist, hrun, h⟩

/-- **Ten is reported for an order of eleven.** -/
theorem total_without_tax :
    ∃ out t' cust ware dist, taxedOrder.reply.commit none taxedTables = some (.newOrder true out, t') ∧
      taxedTables.db.row .customer (1, 1, 1) = some cust ∧ taxedTables.db.row .warehouse 1 = some ware ∧
        taxedTables.db.row .district (1, 1) = some dist ∧
          out.total ≠ fullTotal (taxedTables.db.subtotal [⟨1, 1, 2⟩]) cust ware dist := by
  obtain ⟨out, t', hrun, htotal⟩ := taxedOrder_run
  have hcust : (taxedTables.db.row .customer (1, 1, 1)).map (fun cust => cust.cDiscount) = some 0 := by
    decide +kernel
  have hware : (taxedTables.db.row .warehouse 1).map (fun ware => ware.wTax) = some (8 / 100) := by
    decide +kernel
  have hdist : (taxedTables.db.row .district (1, 1)).map (fun dist => dist.dTax) = some (2 / 100) := by
    decide +kernel
  have hsub : taxedTables.db.subtotal [⟨1, 1, 2⟩] = 10 := by decide +kernel
  obtain ⟨cust, hcust, hdiscount⟩ := Option.map_eq_some_iff.mp hcust
  obtain ⟨ware, hware, hwtax⟩ := Option.map_eq_some_iff.mp hware
  obtain ⟨dist, hdist, hdtax⟩ := Option.map_eq_some_iff.mp hdist
  refine ⟨out, t', cust, ware, dist, hrun, hcust, hware, hdist, ?_⟩
  rw [htotal, hsub, fullTotal, hdiscount, hwtax, hdtax]
  norm_num

end TpccBench
