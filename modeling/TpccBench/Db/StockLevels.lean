import TpccBench.Db.Insertions
import TpccBench.Db.NewOrder

/-!
# Stock levels

A line takes from a stock row, and ninety-one is added when too little is left. So the
quantity is, modulo ninety-one, what it was at first less all that was ordered, and that it
stays between 10 and 100 says which of the residues it is (`TpccBench.Stock.orderedAll_quantity`). Only
the totals matter, and the lines may come in any order.

The counters of the row are `int32_t`: they tell what was ordered as long as the sum fits
(`TpccBench.StockCounter.value_orderedAll`), and a row that is ordered from for long enough leaves
that range (`TpccBench.stock_overflows`).

From the lines of a call to the lines of a run: `TpccBench.stock_levels`.
-/

namespace TpccBench

open Prog

variable {F : Type}

/-! ### One row -/

/-- `MIN_QUANTITY` and `MAX_QUANTITY` bound the quantity. -/
def Stock.InRange (s : Stock) : Prop := 10 ≤ s.sQuantity ∧ s.sQuantity ≤ 100

/-- A quantity as clients order it. -/
def NewOrderItem.InRange (item : NewOrderItem) : Prop := 1 ≤ item.olQuantity ∧ item.olQuantity ≤ 10

/-- All that is ordered. -/
def totalQuantity (ls : List SupplyLine) : ℤ := (ls.map fun l => l.2.olQuantity).sum

/-- The lines that another warehouse has ordered. -/
def remoteCount (ls : List SupplyLine) : ℕ := ls.countP fun l => l.2.olSupplyWId ≠ l.1

theorem totalQuantity_cons (l : SupplyLine) (ls : List SupplyLine) :
    totalQuantity (l :: ls) = l.2.olQuantity + totalQuantity ls := by
  simp [totalQuantity]

/-- The branch and the refill are one step modulo ninety-one. -/
theorem Stock.ordered_quantity {s : Stock} (hs : s.InRange) {home : ℤ} {item : NewOrderItem}
    (hi : item.InRange) :
    (s.ordered home item).sQuantity = 10 + (s.sQuantity - 10 - item.olQuantity) % 91 := by
  obtain ⟨hs₁, hs₂⟩ := hs
  obtain ⟨hi₁, hi₂⟩ := hi
  simp (disch := omega) only [Stock.ordered, int32_of_fits]
  split <;> omega

theorem Stock.InRange.ordered {s : Stock} (hs : s.InRange) {home : ℤ} {item : NewOrderItem}
    (hi : item.InRange) : (s.ordered home item).InRange := by
  rw [Stock.InRange, Stock.ordered_quantity hs hi]
  omega

/-- **The closed form of the quantity**: what is left depends on the total only. -/
theorem Stock.orderedAll_quantity {ls : List SupplyLine} {s : Stock} (hs : s.InRange)
    (hls : ∀ l ∈ ls, l.2.InRange) :
    (s.orderedAll ls).sQuantity = 10 + (s.sQuantity - 10 - totalQuantity ls) % 91 := by
  induction ls generalizing s with
  | nil =>
    obtain ⟨h₁, h₂⟩ := hs
    rw [Stock.orderedAll_nil, id_eq, totalQuantity, List.map_nil, List.sum_nil]
    omega
  | cons l ls ih =>
    obtain ⟨hl, hls⟩ := List.forall_mem_cons.mp hls
    rw [Stock.orderedAll_cons, ih (hs.ordered hl) hls, Stock.ordered_quantity hs hl, totalQuantity_cons]
    omega

theorem Stock.InRange.orderedAll {s : Stock} (hs : s.InRange) {ls : List SupplyLine}
    (hls : ∀ l ∈ ls, l.2.InRange) : (s.orderedAll ls).InRange := by
  rw [Stock.InRange, Stock.orderedAll_quantity hs hls]
  omega

/-! ### Its counters -/

/-- The counters of a stock row. -/
inductive StockCounter
  | sYtd
  | sOrderCnt
  | sRemoteCnt

namespace StockCounter

def value : StockCounter → Stock → ℤ
  | sYtd, s => s.sYtd
  | sOrderCnt, s => s.sOrderCnt
  | sRemoteCnt, s => s.sRemoteCnt

/-- What some lines add to a counter, one after the other. -/
def terms : StockCounter → List SupplyLine → List ℤ
  | sYtd, ls => ls.map fun l => l.2.olQuantity
  | sOrderCnt, ls => ls.map fun _ => 1
  | sRemoteCnt, ls => (ls.filter fun l => l.2.olSupplyWId ≠ l.1).map fun _ => 1

variable (k : StockCounter)

theorem terms_perm {ls ls' : List SupplyLine} (h : ls.Perm ls') : (k.terms ls).Perm (k.terms ls') := by
  cases k with
  | sYtd => exact h.map _
  | sOrderCnt => exact h.map _
  | sRemoteCnt => exact (h.filter _).map _

/-- **A counter counts** in an `int32_t`. -/
theorem value_orderedAll (ls : List SupplyLine) (s : Stock) :
    k.value (s.orderedAll ls) = Word.tally 32 (k.value s) (k.terms ls) := by
  induction ls generalizing s with
  | nil => cases k <;> rfl
  | cons l ls ih =>
    rw [Stock.orderedAll_cons, ih]
    cases k with
    | sYtd => rfl
    | sOrderCnt => rfl
    | sRemoteCnt =>
      by_cases hr : l.2.olSupplyWId ≠ l.1
      · rw [terms, terms, List.filter_cons_of_pos (by simpa using hr), List.map_cons, Word.tally_cons]
        simp only [value, Stock.ordered, if_pos hr]
      · rw [terms, terms, List.filter_cons_of_neg (by simpa using hr)]
        simp only [value, Stock.ordered, if_neg hr]

end StockCounter

theorem StockCounter.sum_sOrderCnt (ls : List SupplyLine) : (sOrderCnt.terms ls).sum = ls.length := by
  rw [terms, List.map_const', List.sum_replicate, nsmul_eq_mul, mul_one]

theorem StockCounter.sum_sRemoteCnt (ls : List SupplyLine) : (sRemoteCnt.terms ls).sum = remoteCount ls := by
  rw [terms, List.map_const', List.sum_replicate, nsmul_eq_mul, mul_one, remoteCount, List.countP_eq_length_filter]

/-- The other columns are kept. -/
theorem Stock.orderedAll_eq (ls : List SupplyLine) (s : Stock) :
    s.orderedAll ls =
      { s with
        sQuantity := (s.orderedAll ls).sQuantity
        sYtd := (s.orderedAll ls).sYtd
        sOrderCnt := (s.orderedAll ls).sOrderCnt
        sRemoteCnt := (s.orderedAll ls).sRemoteCnt } := by
  induction ls generalizing s with
  | nil => rfl
  | cons l ls ih =>
    rw [Stock.orderedAll_cons]
    exact ih (s.ordered l.1 l.2)

/-- **The order of the lines does not matter.** -/
theorem Stock.orderedAll_perm {ls ls' : List SupplyLine} (h : ls.Perm ls') {s : Stock} (hs : s.InRange)
    (hls : ∀ l ∈ ls, l.2.InRange) : s.orderedAll ls = s.orderedAll ls' := by
  have htotal : totalQuantity ls = totalQuantity ls' := (h.map _).sum_eq
  have hquantity : (s.orderedAll ls).sQuantity = (s.orderedAll ls').sQuantity := by
    rw [Stock.orderedAll_quantity hs hls, Stock.orderedAll_quantity hs fun l hl => hls l (h.mem_iff.mpr hl), htotal]
  have hcounter (k : StockCounter) : k.value (s.orderedAll ls) = k.value (s.orderedAll ls') := by
    rw [k.value_orderedAll, k.value_orderedAll, Word.tally_perm (k.terms_perm h)]
  have hytd : (s.orderedAll ls).sYtd = (s.orderedAll ls').sYtd := hcounter .sYtd
  have hcnt : (s.orderedAll ls).sOrderCnt = (s.orderedAll ls').sOrderCnt := hcounter .sOrderCnt
  have hremote : (s.orderedAll ls).sRemoteCnt = (s.orderedAll ls').sRemoteCnt := hcounter .sRemoteCnt
  rw [Stock.orderedAll_eq ls, Stock.orderedAll_eq ls', hquantity, hytd, hcnt, hremote]

/-- **An `int32_t` that counted on**: exactly, where the sum is one, and modulo its size otherwise. -/
structure Counted (x n x' : ℤ) : Prop where
  exact : FitsInt32 (x + n) → x' = x + n
  wrapped : FitsInt32 x → x' = int32 (x + n)

theorem counted_tally (x : ℤ) (ns : List ℤ) : Counted x ns.sum (Word.tally 32 x ns) where
  exact := Word.tally_of_fits (by decide)
  wrapped := Word.tally_eq_wrap (by decide)

/-- **A stock row and what became of it**: the quantity is in range, and in the residue class
that the total says; the counters have counted the lines. As long as the sum of all that was ordered fits, the
row tells it by itself. -/
structure Stock.Leveled (ls : List SupplyLine) (s s' : Stock) : Prop where
  inRange : s'.InRange
  sQuantity : s'.sQuantity = 10 + (s.sQuantity - 10 - totalQuantity ls) % 91
  sYtd : Counted s.sYtd (totalQuantity ls) s'.sYtd
  sOrderCnt : Counted s.sOrderCnt ls.length s'.sOrderCnt
  sRemoteCnt : Counted s.sRemoteCnt (remoteCount ls) s'.sRemoteCnt
  closed : FitsInt32 (s.sYtd + totalQuantity ls) → s'.sQuantity = 10 + (s.sQuantity - 10 - (s'.sYtd - s.sYtd)) % 91

theorem Stock.orderedAll_leveled {ls : List SupplyLine} {s : Stock} (hs : s.InRange)
    (hls : ∀ l ∈ ls, l.2.InRange) : s.Leveled ls (s.orderedAll ls) := by
  have hcounted (k : StockCounter) : Counted (k.value s) (k.terms ls).sum (k.value (s.orderedAll ls)) := by
    rw [k.value_orderedAll]
    exact counted_tally _ _
  have hquantity := Stock.orderedAll_quantity hs hls
  have hytd : Counted s.sYtd (totalQuantity ls) (s.orderedAll ls).sYtd := hcounted .sYtd
  refine ⟨hs.orderedAll hls, hquantity, hytd, ?_, ?_, fun hfits => ?_⟩
  · rw [← StockCounter.sum_sOrderCnt]
    exact hcounted .sOrderCnt
  · rw [← StockCounter.sum_sRemoteCnt]
    exact hcounted .sRemoteCnt
  · rw [hytd.exact hfits, add_sub_cancel_left, hquantity]

/-! ### All rows -/

namespace Db

/-- All quantities are in range. -/
def Stocked (db : Db F) : Prop := ∀ id s, db.row .stock id = some s → s.InRange

variable {db db' : Db F}

theorem Stocked.takeStock (h : db.Stocked) {ls : List SupplyLine} (hls : ∀ l ∈ ls, l.2.InRange) :
    (db.takeStock ls).Stocked := by
  intro id s hs
  rw [takeStock_stock] at hs
  obtain ⟨s₀, hs₀, rfl⟩ := Option.map_eq_some_iff.mp hs
  exact (h id s₀ hs₀).orderedAll fun l hl => hls l (List.mem_of_mem_filter hl)

/-- An insertion leaves all quantities in range, if the one it inserts is. -/
theorem Stocked.insertion (h : db.Stocked) {i : Insertion F} (hi : ∀ s, i = .stock s → s.InRange)
    (hrun : i.onDb db = some ((), db')) : db'.Stocked := by
  have hsame : db'.row .stock = db.row .stock → db'.Stocked := fun heq id s hs => h id s (heq ▸ hs)
  cases i with
  | item i =>
    obtain ⟨-, rfl⟩ := insertItem_eq_some hrun
    exact hsame rfl
  | stock s =>
    obtain ⟨-, -, rfl⟩ := insert_eq_some hrun
    intro id s' hs'
    rw [setRow_row] at hs'
    split at hs'
    · exact Option.some.inj hs' ▸ hi s rfl
    · exact h id s' hs'
  | history r => exact hsame (by rw [insertHistory_eq_some hrun])
  | warehouse | district | customer | order | orderLine | newOrder =>
    obtain ⟨-, -, rfl⟩ := insert_eq_some hrun
    exact hsame (setRow_row_of_ne _ (by simp))

theorem Stocked.insertions {is : List (Insertion F)} (h : db.Stocked)
    (his : ∀ i ∈ is, ∀ s, i = .stock s → s.InRange) (hrun : is.forM Insertion.onDb db = some ((), db')) :
    db'.Stocked := by
  exact Triple.forM (fun i hi db₁ h₁ _ db₂ hone => Stocked.insertion h₁ (his i hi) hone) db h () db' hrun

end Db

/-! ### Calls -/

/-- The items of an order, or of a part of one. -/
def Txn.items : Txn F → List NewOrderItem
  | newOrder _ _ _ _ items _ _ => items
  | newOrderHome _ _ _ items _ _ => items
  | newOrderRemote _ _ items => items
  | _ => []

/-- A call of `newOrder`, `newOrderHome` or `newOrderRemote`. -/
def Txn.Orders : Txn F → Prop
  | newOrder .. => True
  | newOrderHome .. => True
  | newOrderRemote .. => True
  | _ => False

/-- The lines a call processes. -/
def Txn.lines : Txn F → List SupplyLine
  | newOrder _ w _ _ items _ _ => Db.orderLines w items
  | newOrderHome w _ _ items _ _ => Db.supplied w w items
  | newOrderRemote home remote items => Db.supplied home remote items
  | _ => []

theorem Txn.lines_inRange {x : Txn F} (h : ∀ item ∈ x.items, item.InRange) :
    ∀ l ∈ x.lines, l.2.InRange := by
  have hpart : ∀ (home w : ℤ) (items : List NewOrderItem), (∀ item ∈ items, item.InRange) →
      ∀ l ∈ Db.supplied home w items, l.2.InRange := by
    intro home w items h l hl
    obtain ⟨item, hitem, rfl⟩ := List.mem_map.mp hl
    exact h item (List.mem_of_mem_filter hitem)
  intro l hl
  cases x with
  | newOrder o w d c items now output =>
    obtain ⟨item, hitem, rfl⟩ := List.mem_map.mp hl
    exact h item hitem
  | newOrderHome w d c items now output => exact hpart w w items h l hl
  | newOrderRemote home remote items => exact hpart home remote items h l hl
  | _ => exact absurd hl List.not_mem_nil

variable [Money F]

/-- Committed transactions, one after the other. -/
def commitAll (xs : List (Txn F × Option HashOrder)) : Op F (List (Reply F)) :=
  xs.mapM fun e => e.1.reply.commit e.2

/-- **What a committed call takes from the stock.** -/
theorem Txn.OnDb.stock {x : Txn F} {y : Dx F (Reply F)} (h : x.OnDb y) (hx : x.Orders) {db db' : Db F}
    (hk : db.Keyed) {r : Reply F} (hrun : y db = some (r, db')) (hr : r.committed = true) :
    db'.row .stock = (db.takeStock x.lines).row .stock := by
  cases h with
  | newOrder o w d c items now output =>
    obtain ⟨⟨result, out⟩, db₁, hy, hret⟩ := bind_eq_some hrun
    obtain ⟨rfl, rfl⟩ := Prod.mk.inj (Option.some.inj hret)
    rcases Db.newOrder_eq_some hk hy with ⟨rfl, -⟩ | ⟨-, p, -, rfl⟩
    · exact absurd hr (by simp [Reply.committed])
    · funext id
      simp only [Db.takeStock_stock, Placement.apply_row_of_ne (k := .stock) (by simp), Txn.lines]
  | newOrderHome w d c items now output =>
    obtain ⟨⟨result, out⟩, db₁, hy, hret⟩ := bind_eq_some hrun
    obtain ⟨rfl, rfl⟩ := Prod.mk.inj (Option.some.inj hret)
    rcases Db.newOrderHome_eq_some hk hy with ⟨rfl, -⟩ | ⟨-, p, -, rfl⟩
    · exact absurd hr (by simp [Reply.committed])
    · funext id
      simp only [Db.takeStock_stock, Placement.apply_row_of_ne (k := .stock) (by simp), Txn.lines]
  | newOrderRemote home remote items =>
    obtain ⟨qs, db₁, hy, hret⟩ := bind_eq_some hrun
    obtain ⟨rfl, rfl⟩ := Prod.mk.inj (Option.some.inj hret)
    rcases Db.newOrderRemote_eq_some hk hy with ⟨rfl, -⟩ | ⟨q, -, rfl⟩
    · exact absurd hr (by simp [Reply.committed])
    · rfl
  | payment | paymentByName | paymentHome | paymentRemote | paymentRemoteByName | delivery => exact hx.elim

/-! ### What is reported -/

/-- A quantity that is reported of a stock row. -/
def QuantityInRange (q : ℤ) : Prop := 10 ≤ q ∧ q ≤ 100

omit [Money F] in
/-- **`newOrderCombine`**: the quantities that are not invalid are filled in. -/
theorem forall₂_newOrderCombine {R T : NewOrderItem → ItemInfo F → Prop} {S : NewOrderItem → ℤ → Prop}
    {items : List NewOrderItem} {qs : List ℤ} {output out : NewOrderOutput F}
    (hrun : newOrderCombine qs output = some out) (hR : List.Forall₂ R items output.items)
    (hS : List.Forall₂ S items qs)
    (hfill : ∀ item info q, R item info → S item q → q ≠ invalidQuantity →
      T item { info with sQuantity := q })
    (hkeep : ∀ item info, R item info → S item invalidQuantity → T item info) :
    List.Forall₂ T items out.items := by
  obtain ⟨_, -, hmerge⟩ := Option.bind_eq_some_iff.mp hrun
  obtain ⟨infos, hmap, hret⟩ := Option.bind_eq_some_iff.mp hmerge
  obtain rfl := Option.some.inj hret
  have hall := forall₂_of_mapM hmap
  clear hrun hmerge hmap hret
  dsimp only
  generalize output.items = old at hR hall
  induction hR generalizing qs infos with
  | nil =>
    rw [List.zip_nil_right] at hall
    cases hall
    exact List.Forall₂.nil
  | cons hinfo hR ih =>
    cases hS with
    | cons hq hS =>
      rw [List.zip_cons_cons] at hall
      cases hall with
      | cons hone hall =>
        refine List.Forall₂.cons ?_ (ih hS _ hall)
        dsimp only at hone
        split at hone
        · next hne =>
          split at hone
          · obtain rfl := Option.some.inj hone
            exact hfill _ _ _ hinfo hq hne
          · exact absurd hone (by simp)
        · next heq =>
          obtain rfl := Option.some.inj hone
          rw [not_not.mp heq] at hq
          exact hkeep _ _ hinfo hq

/-- **What `newOrderRemote` reports** of a line it processes is a quantity in range, and of
the others nothing. -/
def Supplied (remote : ℤ) (item : NewOrderItem) (q : ℤ) : Prop :=
  if item.olSupplyWId = remote then QuantityInRange q else q = invalidQuantity

theorem Supplied.inRange {remote q : ℤ} {item : NewOrderItem} (h : Supplied remote item q)
    (hq : q ≠ invalidQuantity) : item.olSupplyWId = remote ∧ QuantityInRange q := by
  rw [Supplied] at h
  split at h
  · next heq => exact ⟨heq, h⟩
  · exact absurd h hq

/-- The invalid quantity is out of range. -/
theorem Supplied.ne_of_invalid {remote : ℤ} {item : NewOrderItem}
    (h : Supplied remote item invalidQuantity) : item.olSupplyWId ≠ remote := by
  intro heq
  rw [Supplied, if_pos heq] at h
  exact absurd h.1 (by decide)

/-- The quantities of the lines from these warehouses are filled in. -/
def Filled (ws : List ℤ) (item : NewOrderItem) (info : ItemInfo F) : Prop :=
  item.olSupplyWId ∈ ws → QuantityInRange info.sQuantity

namespace Db

omit [Money F] in
theorem newOrderRemote_supplied {db db' : Db F} (hk : db.Keyed) (hs : db.Stocked) {home remote : ℤ}
    {items : List NewOrderItem} (hitems : ∀ item ∈ items, item.InRange) {qs : List ℤ}
    (h : newOrderRemote home remote items db = some (some qs, db')) :
    List.Forall₂ (Supplied remote) items qs := by
  rw [newOrderRemote] at h
  obtain ⟨tuples, db₁, hfind, h⟩ := bind_eq_some h
  obtain ⟨rfl, -⟩ := findAndValidateItems_eq_some hfind
  cases tuples with
  | none => exact absurd (congrArg Prod.fst (Option.some.inj h)) (by simp)
  | some tuples =>
    obtain ⟨q, db₂, hloop, h⟩ := bind_eq_some h
    obtain ⟨heq, -⟩ := Prod.mk.inj (Option.some.inj h)
    obtain rfl := Option.some.inj heq
    have hinv := Triple.mapM (f := updateStock home remote) (J := Supplied remote)
      (I := fun l (db : Db F) => db.Keyed ∧ db.Stocked ∧ ∀ item ∈ l, item.InRange)
      (fun item l db hI q db' hrun => ?_) items
    · exact (hinv db ⟨hk, hs, hitems⟩ q db₂ hloop).1
    · obtain ⟨hk, hs, hl⟩ := hI
      obtain ⟨hitem, hl⟩ := List.forall_mem_cons.mp hl
      obtain ⟨rfl, hq⟩ := updateStock_eq_some hk hrun
      have hs' : (db.takeStock (supplied home remote [item])).Stocked :=
        hs.takeStock (Txn.lines_inRange (x := (.newOrderRemote home remote [item] : Txn F))
          fun i hi => by rw [List.mem_singleton.mp hi]; exact hitem)
      refine ⟨?_, hk.takeStock _, hs', hl⟩
      rw [Supplied]
      split
      · next heq =>
        rw [if_pos heq] at hq
        obtain ⟨s, hrow, rfl⟩ := hq
        exact hs' _ s hrow
      · next hne =>
        rw [if_neg hne] at hq
        exact hq

omit [Money F] in
/-- A part of an order fills in the quantities of its warehouse. -/
theorem filled_of_supplied {w : ℤ} {ws : List ℤ} {items : List NewOrderItem} {qs : List ℤ}
    {output out : NewOrderOutput F} (h : newOrderCombine qs output = some out)
    (hold : List.Forall₂ (Filled ws) items output.items) (hqs : List.Forall₂ (Supplied w) items qs) :
    List.Forall₂ (Filled (ws ++ [w])) items out.items := by
  refine forall₂_newOrderCombine h hold hqs ?_ ?_
  · exact fun item info q _ hq hne _ => (hq.inRange hne).2
  · intro item info hinfo hq hmem
    rcases List.mem_append.mp hmem with hmem | hmem
    · exact hinfo hmem
    · exact absurd (List.mem_singleton.mp hmem) hq.ne_of_invalid

theorem newOrderHome_filled {db db' : Db F} (hk : db.Keyed) (hs : db.Stocked) {w d c : ℤ}
    {items : List NewOrderItem} (hitems : ∀ item ∈ items, item.InRange) {now : List Char}
    {output out : NewOrderOutput F}
    (h : newOrderHome w d c items now output db = some ((true, out), db')) :
    List.Forall₂ (Filled [w]) items out.items := by
  rw [newOrderHome] at h
  obtain ⟨⟨qs, out₁⟩, db₁, hhome, hret⟩ := bind_eq_some h
  rcases newOrderHomeUncombined_eq_some hk hhome with ⟨rfl, -⟩ | ⟨p, q, rfl, hp, -, hinfos, -, hremote, -⟩
  · exact absurd (congrArg (fun r => r.1.1) (Option.some.inj hret)) (by simp)
  · obtain ⟨combined, db₂, hlift, hret⟩ := bind_eq_some hret
    obtain ⟨hcombine, rfl⟩ := lift_eq_some hlift
    obtain ⟨heq, -⟩ := Prod.mk.inj (Option.some.inj hret)
    obtain rfl := (Prod.mk.inj heq).2
    have hstocked : (p.apply db).Stocked := fun id s hrow => by
      rw [Placement.apply_row_of_ne (by simp)] at hrow
      exact hs id s hrow
    have hqs := newOrderRemote_supplied (hp.keyed hk) hstocked hitems hremote
    have hlen : items.length = out₁.items.length := by
      have hentries : p.entries.length = items.length := by simpa using congrArg List.length hp.items
      have hzip := List.Forall₂.length_eq hinfos
      rw [List.length_zipIdx] at hzip
      omega
    have hnone : List.Forall₂ (Filled []) items out₁.items :=
      List.forall₂_iff_zip.mpr ⟨hlen, fun _ hmem => absurd hmem List.not_mem_nil⟩
    exact filled_of_supplied hcombine hnone hqs

omit [Money F] in
theorem newOrderRemotes_filled {db db' : Db F} (hk : db.Keyed) (hs : db.Stocked) {w : ℤ}
    {items : List NewOrderItem} (hitems : ∀ item ∈ items, item.InRange) {remotes ws : List ℤ}
    {output out : NewOrderOutput F} (hold : List.Forall₂ (Filled ws) items output.items)
    (h : newOrderRemotes w items remotes output db = some (out, db')) :
    List.Forall₂ (Filled (ws ++ remotes)) items out.items := by
  induction remotes generalizing output db ws with
  | nil =>
    obtain ⟨rfl, rfl⟩ := Prod.mk.inj (Option.some.inj h)
    rwa [List.append_nil]
  | cons remote remotes ih =>
    rw [newOrderRemotes, List.foldlM_cons] at h
    obtain ⟨out₁, db₁, hone, h⟩ := bind_eq_some h
    obtain ⟨qs, db₂, hremote, hone⟩ := bind_eq_some hone
    rcases newOrderRemote_eq_some hk hremote with ⟨rfl, -⟩ | ⟨q, rfl, rfl⟩
    · exact absurd hone (by simp [failure, StateT.failure])
    · obtain ⟨hcombine, rfl⟩ := lift_eq_some hone
      have hq := newOrderRemote_supplied hk hs hitems hremote
      have hmore := ih (hk.takeStock _) (hs.takeStock (Txn.lines_inRange
        (x := (.newOrderRemote w remote items : Txn F)) hitems)) (filled_of_supplied hcombine hold hq) h
      rwa [List.append_assoc] at hmore

theorem newOrder_filled {db db' : Db F} (hk : db.Keyed) (hs : db.Stocked) {o : HashOrder} {w d c : ℤ}
    {items : List NewOrderItem} (hitems : ∀ item ∈ items, item.InRange) {now : List Char}
    {output out : NewOrderOutput F}
    (h : newOrder o w d c items now output db = some ((true, out), db')) :
    List.Forall₂ (fun _ info => QuantityInRange info.sQuantity) items out.items := by
  rw [newOrder] at h
  obtain ⟨⟨home, out₁⟩, db₁, hhome, hret⟩ := bind_eq_some h
  have hhome' := newOrderHome_eq_some hk hhome
  rcases hhome' with ⟨rfl, -⟩ | ⟨rfl, p, hp, rfl⟩
  · exact absurd (congrArg (fun r => r.1.1) (Option.some.inj hret)) (by simp)
  · obtain ⟨out₂, db₂, hremotes, hret⟩ := bind_eq_some hret
    obtain ⟨heq, -⟩ := Prod.mk.inj (Option.some.inj hret)
    obtain rfl := (Prod.mk.inj heq).2
    have hstocked : (p.apply db).Stocked := fun id s hrow => by
      rw [Placement.apply_row_of_ne (by simp)] at hrow
      exact hs id s hrow
    have hfilled := newOrderRemotes_filled ((hp.keyed hk).takeStock _)
      (hstocked.takeStock (Txn.lines_inRange (x := (.newOrderRemote w w items : Txn F)) hitems)) hitems
      (newOrderHome_filled hk hs hitems hhome) hremotes
    -- every line is of one of these warehouses
    obtain ⟨-, hmem⟩ := newOrderRemoteWarehouses_spec w items
    have hmems := (List.forall₂_and_left (p := fun item => item ∈ items) _ _).mpr
      ⟨fun item hitem => hitem, hfilled⟩
    refine hmems.imp ?_
    rintro item info ⟨hitem, hinfo⟩
    refine hinfo ?_
    by_cases hw : item.olSupplyWId = w
    · exact List.mem_append_left _ (List.mem_singleton.mpr hw)
    · exact List.mem_append_right _ ((o.perm _ _).mem_iff.mpr ((hmem _).mpr ⟨hw, item, hitem, rfl⟩))

end Db

/-! ### Runs -/

section Runs

variable {t t' : Tables F} {calls calls' : List (Txn F × Option HashOrder)} {replies : List (Reply F)}

omit [Money F] in
/-- The lines that a run processes. -/
def runLines (calls : List (Txn F × Option HashOrder)) : List SupplyLine :=
  calls.flatMap fun e => e.1.lines

omit [Money F] in
/-- **What is reported** of the stock: every quantity that a call fills in is in range, and so
is not the invalid one. -/
def Txn.Reports : Txn F → Reply F → Prop
  | newOrder _ _ _ _ items _ _, .newOrder _ output =>
    List.Forall₂ (fun _ info => QuantityInRange info.sQuantity) items output.items
  | newOrderHome w _ _ items _ _, .newOrder _ output => List.Forall₂ (Filled [w]) items output.items
  | newOrderRemote _ remote items, .quantities (some qs) => List.Forall₂ (Supplied remote) items qs
  | _, _ => False

/-- One call of a run. -/
theorem Txn.commit_orders (ht : t.Sound) {x : Txn F} (hx : x.Orders) {free : Option HashOrder}
    {r : Reply F} (h : x.reply.commit free t = some (r, t')) (hr : r.committed = true) :
    t'.Sound ∧ t'.db.row .stock = (t.db.takeStock x.lines).row .stock ∧
      (t.db.Stocked → (∀ item ∈ x.items, item.InRange) → x.Reports r) := by
  obtain ⟨hs, y, hon, hy⟩ := Txn.commit_onDb ht h
  refine ⟨hs, hon.stock hx ht.keyed hy hr, fun hst hitems => ?_⟩
  cases hon with
  | newOrder o w d c items now output =>
    obtain ⟨⟨result, out⟩, db₁, hrun, hret⟩ := bind_eq_some hy
    obtain ⟨rfl, rfl⟩ := Prod.mk.inj (Option.some.inj hret)
    obtain rfl : result = true := hr
    exact Db.newOrder_filled ht.keyed hst hitems hrun
  | newOrderHome w d c items now output =>
    obtain ⟨⟨result, out⟩, db₁, hrun, hret⟩ := bind_eq_some hy
    obtain ⟨rfl, rfl⟩ := Prod.mk.inj (Option.some.inj hret)
    obtain rfl : result = true := hr
    exact Db.newOrderHome_filled ht.keyed hst hitems hrun
  | newOrderRemote home remote items =>
    obtain ⟨qs, db₁, hrun, hret⟩ := bind_eq_some hy
    obtain ⟨rfl, rfl⟩ := Prod.mk.inj (Option.some.inj hret)
    obtain ⟨qs, rfl⟩ := Option.isSome_iff_exists.mp hr
    exact Db.newOrderRemote_supplied ht.keyed hst hitems hrun
  | payment | paymentByName | paymentHome | paymentRemote | paymentRemoteByName | delivery => exact hx.elim

/-- **A run of calls** takes all of their lines. -/
theorem commitAll_orders (ht : t.Sound) (hst : t.db.Stocked)
    (hcalls : ∀ e ∈ calls, e.1.Orders ∧ ∀ item ∈ e.1.items, item.InRange)
    (h : commitAll calls t = some (replies, t')) (hr : ∀ r ∈ replies, r.committed = true) :
    t'.Sound ∧ t'.db.row .stock = (t.db.takeStock (runLines calls)).row .stock ∧
      List.Forall₂ (fun e r => e.1.Reports r) calls replies := by
  induction calls generalizing t replies with
  | nil =>
    obtain ⟨rfl, rfl⟩ := Prod.mk.inj (Option.some.inj h)
    exact ⟨ht, by rw [runLines, List.flatMap_nil, Db.takeStock_nil], List.Forall₂.nil⟩
  | cons e calls ih =>
    obtain ⟨⟨he, hitems⟩, hcalls⟩ := List.forall_mem_cons.mp hcalls
    rw [commitAll, List.mapM_cons] at h
    obtain ⟨r, t₁, hone, h⟩ := bind_eq_some h
    obtain ⟨rs, t₂, hrest, hret⟩ := bind_eq_some h
    obtain ⟨rfl, rfl⟩ := Prod.mk.inj (Option.some.inj hret)
    obtain ⟨hr, hrs⟩ := List.forall_mem_cons.mp hr
    obtain ⟨ht₁, hstock, hrep⟩ := Txn.commit_orders ht he hone hr
    have hst₁ : t₁.db.Stocked := fun id s hs =>
      hst.takeStock (Txn.lines_inRange hitems) id s (by rw [← hstock, hs])
    obtain ⟨ht', hstock', hreps⟩ := ih ht₁ hst₁ hcalls hrest hrs
    refine ⟨ht', ?_, List.Forall₂.cons (hrep hst hitems) hreps⟩
    rw [runLines, List.flatMap_cons, ← Db.takeStock_takeStock, hstock']
    funext id
    simp only [Db.takeStock_stock, hstock]
    rfl

/-! ### Parts of orders, in any order -/

omit [Money F] in
/-- The databases have the same items, and stock rows for the same ids. -/
structure Db.SameGoods (db db' : Db F) : Prop where
  keyed : db.Keyed
  keyed' : db'.Keyed
  items : db.items = db'.items
  stock (id : ℤ × ℤ) : (db.row .stock id).isSome = (db'.row .stock id).isSome

omit [Money F] in
theorem Db.SameGoods.symm {db db' : Db F} (h : db.SameGoods db') : db'.SameGoods db :=
  ⟨h.keyed', h.keyed, h.items.symm, fun id => (h.stock id).symm⟩

omit [Money F] in
theorem Db.SameGoods.takeStock {db : Db F} (hk : db.Keyed) (ls : List SupplyLine) :
    db.SameGoods (db.takeStock ls) where
  keyed := hk
  keyed' := hk.takeStock ls
  items := rfl
  stock id := by rw [takeStock_stock, Option.isSome_map]

omit [Money F] in
/-- Items are found alike. -/
theorem Db.findAndValidateItems_sim {P : Db F → Db F → Prop} (hP : ∀ db db', P db db' → db.items = db'.items)
    (items : List NewOrderItem) : Sim P (findAndValidateItems items) (findAndValidateItems items)
      fun a b db db' => a = b ∧ P db db' := by
  induction items with
  | nil => exact Sim.pure fun db db' h => ⟨rfl, h⟩
  | cons item items ih =>
    refine Sim.bind_eq (Q := fun _ => P) ?_ fun found => ?_
    · intro db db' h
      rw [findItem, findItem, hP db db' h]
      split
      · exact Option.Rel.some ⟨rfl, h⟩
      · exact Option.Rel.none
    · cases found with
      | none => exact Sim.pure fun db db' h => ⟨rfl, h⟩
      | some tuple => exact ih.bind_eq fun rest => Sim.pure fun db db' h => ⟨rfl, h⟩

omit [Money F] in
/-- **Whether a part is processed** depends on what there is, not on how much of it. -/
theorem Db.newOrderRemote_sameGoods (home remote : ℤ) (items : List NewOrderItem) :
    Sim SameGoods (newOrderRemote (F := F) home remote items) (newOrderRemote home remote items)
      fun a b db db' => a.isSome = b.isSome ∧ SameGoods db db' := by
  rw [newOrderRemote]
  refine Sim.bind_eq (Q := fun _ => SameGoods) (findAndValidateItems_sim (fun _ _ h => h.items) items)
    fun tuples => ?_
  cases tuples with
  | none => exact Sim.pure fun db db' h => ⟨rfl, h⟩
  | some tuples =>
    refine Sim.bind (Q := fun _ _ db db' => SameGoods db db') ?_ fun a b => Sim.pure fun db db' h => ⟨rfl, h⟩
    refine (Sim.mapM_forall₂ (I := fun _ => SameGoods) (J := fun _ _ => True) (fun item l => ?_) items).post
      fun _ _ _ _ h => h.2
    refine Sim.ite Iff.rfl (fun hw => Sim.pure fun db db' h => ⟨trivial, h⟩) fun hw => ?_
    refine (Sim.assert fun _ _ _ => Iff.rfl).bind fun _ _ => ?_
    rintro db db' ⟨-, -, h⟩
    have hstock := h.stock (item.olSupplyWId, item.iId)
    cases hs : db.row .stock (item.olSupplyWId, item.iId) with
    | none =>
      have hnone : db'.row .stock (item.olSupplyWId, item.iId) = none := by
        rw [hs] at hstock
        exact Option.not_isSome_iff_eq_none.mp (by rw [← hstock]; simp)
      simp only [bind_apply, get, hs, hnone, Option.map_none, Option.bind_none]
      exact Option.Rel.none
    | some s =>
      obtain ⟨s', hs'⟩ := Option.isSome_iff_exists.mp (hstock.symm.trans (by rw [hs]; rfl))
      have hid : rowId (F := F) .stock (s.ordered home item) = (item.olSupplyWId, item.iId) :=
        (h.keyed.ids hs : rowId (F := F) .stock s = _)
      have hid' : rowId (F := F) .stock (s'.ordered home item) = (item.olSupplyWId, item.iId) :=
        (h.keyed'.ids hs' : rowId (F := F) .stock s' = _)
      simp only [bind_apply, get, hs, hs', Option.map_some, Option.bind_some, set, hid, hid', pure_apply]
      refine Option.Rel.some ⟨trivial, ?_, ?_, h.items, fun id => ?_⟩
      · exact hid ▸ h.keyed.setRow (hid ▸ h.keyed.keys hs)
      · exact hid' ▸ h.keyed'.setRow (hid' ▸ h.keyed'.keys hs')
      · rw [setRow_row, setRow_row]
        split
        · rfl
        · exact h.stock id

omit [Money F] in
/-- A call of `newOrderRemote`. -/
def Txn.RemotePart : Txn F → Prop
  | newOrderRemote .. => True
  | _ => False

omit [Money F] in
/-- The database has all that a part of an order needs. -/
def Db.Supplies (db : Db F) : Txn F → Prop
  | .newOrderRemote home remote items => ∃ r, newOrderRemote home remote items db = some r ∧ r.1.isSome
  | _ => False

omit [Money F] in
theorem Db.SameGoods.supplies {db db' : Db F} (h : db.SameGoods db') {x : Txn F} (hx : db.Supplies x) :
    db'.Supplies x := by
  cases x with
  | newOrderRemote home remote items =>
    obtain ⟨r, hrun, hr⟩ := hx
    have hrel := newOrderRemote_sameGoods home remote items db db' h
    rw [hrun] at hrel
    generalize hrun' : newOrderRemote home remote items db' = r' at hrel
    cases hrel with
    | some hrel => exact ⟨_, hrun', hrel.1.symm.trans hr⟩
  | _ => exact hx

/-- A part leaves what there is. -/
theorem Txn.commit_sameGoods (ht : t.Sound) {x : Txn F} (hx : x.RemotePart) {free : Option HashOrder}
    {r : Reply F} (h : x.reply.commit free t = some (r, t')) : t'.Sound ∧ t.db.SameGoods t'.db := by
  obtain ⟨hs, y, hon, hy⟩ := Txn.commit_onDb ht h
  refine ⟨hs, ?_⟩
  cases hon with
  | newOrderRemote home remote items =>
    obtain ⟨qs, db₁, hrun, hret⟩ := bind_eq_some hy
    obtain rfl := (Prod.mk.inj (Option.some.inj hret)).2
    rcases Db.newOrderRemote_eq_some ht.keyed hrun with ⟨-, hdb⟩ | ⟨q, -, hdb⟩
    · rw [hdb]
      simpa using Db.SameGoods.takeStock ht.keyed []
    · rw [hdb]
      exact Db.SameGoods.takeStock ht.keyed _
  | _ => exact hx.elim

/-- **A part is committed** where there is what it needs. -/
theorem Txn.supplies_iff (ht : t.Sound) {x : Txn F} (hx : x.RemotePart) (free : Option HashOrder) :
    t.db.Supplies x ↔ ∃ r t', x.reply.commit free t = some (r, t') ∧ r.committed = true := by
  cases x with
  | newOrderRemote home remote items =>
    have hrel := ((newOrderRemote_refines home remote items).map Reply.quantities).commit
      (Txn.reply_journaled (.newOrderRemote home remote items : Txn F)) ht free
    constructor
    · rintro ⟨⟨qs, db'⟩, hrun, hqs⟩
      rw [bind_apply, hrun, Option.bind_some, pure_apply] at hrel
      generalize hcommit : Tx.commit free _ t = r at hrel
      cases hrel with
      | some h =>
        obtain ⟨hr, -⟩ := h
        exact ⟨_, _, hcommit, by rw [hr]; exact hqs⟩
    · rintro ⟨r, t', hcommit, hr⟩
      rw [Txn.reply] at hcommit
      rw [hcommit] at hrel
      generalize hrun : (Db.newOrderRemote home remote items >>= _) t.db = r' at hrel
      cases hrel with
      | some h =>
        obtain ⟨qs, db', hpart, hret⟩ := bind_eq_some hrun
        obtain rfl := Option.some.inj hret
        obtain rfl : r = .quantities qs := h.1
        exact ⟨_, hpart, hr⟩
  | _ => exact hx.elim

/-- **A run of parts** is committed where there is what each of them needs. -/
theorem commitAll_parts_iff (ht : t.Sound) (hcalls : ∀ e ∈ calls, e.1.RemotePart) :
    (∀ e ∈ calls, t.db.Supplies e.1) ↔
      ∃ replies t', commitAll calls t = some (replies, t') ∧ ∀ r ∈ replies, r.committed = true := by
  induction calls generalizing t with
  | nil =>
    refine ⟨fun _ => ⟨[], t, rfl, fun _ h => ?_⟩, fun _ _ h => ?_⟩
    · exact absurd h List.not_mem_nil
    · exact absurd h List.not_mem_nil
  | cons e calls ih =>
    obtain ⟨he, hcalls⟩ := List.forall_mem_cons.mp hcalls
    rw [List.forall_mem_cons, Txn.supplies_iff ht he e.2, commitAll, List.mapM_cons]
    constructor
    · rintro ⟨⟨r, t₁, hone, hr⟩, hrest⟩
      obtain ⟨ht₁, hgoods⟩ := Txn.commit_sameGoods ht he hone
      obtain ⟨rs, t', hrun, hrs⟩ := (ih ht₁ hcalls).mp fun e he => hgoods.supplies (hrest e he)
      refine ⟨r :: rs, t', ?_, List.forall_mem_cons.mpr ⟨hr, hrs⟩⟩
      rw [commitAll] at hrun
      rw [bind_apply, hone, Option.bind_some, bind_apply, hrun]
      rfl
    · rintro ⟨replies, t', hrun, hall⟩
      obtain ⟨r, t₁, hone, hrun'⟩ := bind_eq_some hrun
      obtain ⟨rs, t₂, hrest, hret⟩ := bind_eq_some hrun'
      obtain ⟨rfl, rfl⟩ := Prod.mk.inj (Option.some.inj hret)
      obtain ⟨hr, hrs⟩ := List.forall_mem_cons.mp hall
      obtain ⟨ht₁, hgoods⟩ := Txn.commit_sameGoods ht he hone
      exact ⟨⟨r, t₁, hone, hr⟩, fun e he =>
        hgoods.symm.supplies ((ih ht₁ hcalls).mpr ⟨rs, t₂, hrest, hrs⟩ e he)⟩

omit [Money F] in
theorem runLines_inRange (h : ∀ e ∈ calls, ∀ item ∈ e.1.items, item.InRange) :
    ∀ l ∈ runLines calls, l.2.InRange := by
  intro l hl
  obtain ⟨e, he, hl⟩ := List.mem_flatMap.mp hl
  exact Txn.lines_inRange (h e he) l hl

omit [Money F] in
/-- Which lines there are does not depend on the order of the calls. -/
theorem runLines_perm (h : (calls.map Prod.fst).Perm (calls'.map Prod.fst)) :
    (runLines calls).Perm (runLines calls') := by
  have hmap : ∀ l : List (Txn F × Option HashOrder), runLines l = (l.map Prod.fst).flatMap Txn.lines :=
    fun l => (List.flatMap_map ..).symm
  rw [hmap, hmap]
  exact h.flatMap_right _

/-- **Stock levels.** In every run of committed calls, whose quantities are in range: every
stock row has the closed form, its counters as long as they fit, and no quantity that is reported is the
invalid one. If all calls are parts of orders, they may come in any order: they are committed then as well, and
leave the same stock. -/
theorem stock_levels (ht : t.Sound) (hst : t.db.Stocked)
    (hcalls : ∀ e ∈ calls, e.1.Orders ∧ ∀ item ∈ e.1.items, item.InRange)
    (h : commitAll calls t = some (replies, t')) (hr : ∀ r ∈ replies, r.committed = true) :
    (∀ id, Option.Rel (Stock.Leveled (linesAt id (runLines calls))) (t.db.row .stock id)
        (t'.db.row .stock id)) ∧
      List.Forall₂ (fun e r => e.1.Reports r) calls replies ∧
      ((∀ e ∈ calls, e.1.RemotePart) →
        ∀ calls' : List (Txn F × Option HashOrder), (calls'.map Prod.fst).Perm (calls.map Prod.fst) →
          ∃ replies' t'', commitAll calls' t = some (replies', t'') ∧
            (∀ r ∈ replies', r.committed = true) ∧ t''.db.row .stock = t'.db.row .stock) := by
  obtain ⟨-, hstock, hreports⟩ := commitAll_orders ht hst hcalls h hr
  have hlines : ∀ id, ∀ l ∈ linesAt id (runLines calls), l.2.InRange := fun id l hl =>
    runLines_inRange (fun e he => (hcalls e he).2) l (List.mem_of_mem_filter hl)
  refine ⟨fun id => ?_, hreports, fun hparts calls' hperm => ?_⟩
  · rw [hstock, Db.takeStock_stock]
    cases hrow : t.db.row .stock id with
    | none => exact Option.Rel.none
    | some s => exact Option.Rel.some (Stock.orderedAll_leveled (hst id s hrow) (hlines id))
  · have hmem : ∀ e' ∈ calls', ∃ e ∈ calls, e.1 = e'.1 := fun e' he' =>
      List.mem_map.mp (hperm.mem_iff.mp (List.mem_map_of_mem he'))
    have hall := (commitAll_parts_iff ht hparts).mpr ⟨replies, t', h, hr⟩
    have hparts' : ∀ e ∈ calls', e.1.RemotePart := fun e' he' => by
      obtain ⟨e, he, heq⟩ := hmem e' he'
      exact heq ▸ hparts e he
    obtain ⟨replies', t'', hrun, hr'⟩ := (commitAll_parts_iff ht hparts').mp fun e' he' => by
      obtain ⟨e, he, heq⟩ := hmem e' he'
      exact heq ▸ hall e he
    refine ⟨replies', t'', hrun, hr', ?_⟩
    have hcalls' : ∀ e ∈ calls', e.1.Orders ∧ ∀ item ∈ e.1.items, item.InRange := fun e' he' => by
      obtain ⟨e, he, heq⟩ := hmem e' he'
      exact heq ▸ hcalls e he
    obtain ⟨-, hstock', -⟩ := commitAll_orders ht hst hcalls' hrun hr'
    rw [hstock, hstock']
    funext id
    rw [Db.takeStock_stock, Db.takeStock_stock]
    cases hrow : t.db.row .stock id with
    | none => rfl
    | some s =>
      exact congrArg some (Stock.orderedAll_perm ((runLines_perm hperm).symm.filter _) (hst id s hrow)
        (hlines id)).symm

end Runs

/-- Two orders and two parts of orders. -/
def smallOrders : List (Txn ℚ × Option HashOrder) :=
  [(.newOrder .asInserted 1 1 1 [⟨1, 1, 10⟩, ⟨1, 1, 9⟩] (List.replicate 14 '0') .new, none),
    (.newOrderRemote 2 1 [⟨1, 1, 10⟩, ⟨1, 2, 5⟩], some .asInserted),
    (.newOrderHome 1 1 1 [⟨1, 1, 10⟩] (List.replicate 14 '0') .new, none),
    (.newOrderRemote 3 1 [⟨1, 1, 7⟩], none)]

theorem smallOrders_run : (commitAll smallOrders smallTables).isSome := by decide +kernel

/-- What they return, and leave. -/
def smallOrdered : List (Reply ℚ) × Tables ℚ := (commitAll smallOrders smallTables).get smallOrders_run

theorem smallOrdered_eq : commitAll smallOrders smallTables = some (smallOrdered.1, smallOrdered.2) := by
  rw [Prod.mk.eta, smallOrdered, Option.some_get]

theorem smallOrdered_committed : ∀ r ∈ smallOrdered.1, r.committed = true := by decide +kernel

theorem smallOrders_inRange : ∀ e ∈ smallOrders, e.1.Orders ∧ ∀ item ∈ e.1.items, item.InRange := by
  simp [smallOrders, Txn.Orders, Txn.items, NewOrderItem.InRange]

theorem insertAll_stocked {is : List (Insertion ℚ)} {t : Tables ℚ} (h : insertAll is Tables.empty = some ((), t))
    (hkeyed : ∀ i ∈ is, i.Keyed) (hstock : ∀ i ∈ is, ∀ s, i = .stock s → s.InRange) : t.db.Stocked := by
  have hempty : (Tables.empty : Tables ℚ).db.Stocked := fun id s hs =>
    absurd ((Tables.empty_row .stock id).symm.trans hs) (by simp)
  exact hempty.insertions hstock ((insertAll_onDb Tables.empty_sound h).2 hkeyed)

theorem smallTables_stocked : smallTables.db.Stocked := by
  refine insertAll_stocked (Option.some_get insertAll_smallDatabase).symm ?_ ?_
  · intro i hi
    fin_cases hi <;> first | exact trivial | exact one_ne_zero
  · intro i hi s hs
    subst hs
    obtain rfl : s = ⟨1, 1, 50, 0, 0, 0, fun _ => .empty, .empty⟩ := by
      simpa [smallDatabase] using hi
    exact ⟨by decide, by decide⟩

/-- The orders take 46 from a stock of 50, so that it was refilled once. -/
theorem stock_levels_small :
    Option.Rel (Stock.Leveled (linesAt (1, 1) (runLines smallOrders))) (smallTables.db.row .stock (1, 1))
      (smallOrdered.2.db.row .stock (1, 1)) :=
  (stock_levels smallTables_sound smallTables_stocked smallOrders_inRange smallOrdered_eq
    smallOrdered_committed).1 (1, 1)

/-- A stock row that has counted as far as it can. -/
def fullDatabase : List (Insertion ℚ) :=
  [.item ⟨1, 1, 5, .empty, .empty⟩, .stock ⟨1, 1, 50, 2147483647, 0, 0, fun _ => .empty, .empty⟩]

theorem insertAll_fullDatabase : (insertAll fullDatabase Tables.empty).isSome := by decide

def fullTables : Tables ℚ := ((insertAll fullDatabase Tables.empty).get insertAll_fullDatabase).2

theorem fullTables_stocked : fullTables.db.Stocked := by
  refine insertAll_stocked (Option.some_get insertAll_fullDatabase).symm ?_ ?_
  · intro i hi
    fin_cases hi <;> exact trivial
  · intro i hi s hs
    subst hs
    obtain rfl : s = ⟨1, 1, 50, 2147483647, 0, 0, fun _ => .empty, .empty⟩ := by
      simpa [fullDatabase] using hi
    exact ⟨by decide, by decide⟩

/-- A part of one order for it. -/
def lastOrder : Txn ℚ × Option HashOrder := (.newOrderRemote 2 1 [⟨1, 1, 1⟩], none)

theorem lastOrder_run : (commitAll [lastOrder] fullTables).isSome := by decide +kernel

/-- What it returns, and leaves. -/
def lastOrdered : List (Reply ℚ) × Tables ℚ := (commitAll [lastOrder] fullTables).get lastOrder_run

/-- **The counter does not grow** by what was ordered, and the row does not tell its quantity any more. -/
theorem stock_overflows :
    fullTables.Sound ∧ fullTables.db.Stocked ∧
      commitAll [lastOrder] fullTables = some (lastOrdered.1, lastOrdered.2) ∧
      (lastOrder.1.Orders ∧ ∀ item ∈ lastOrder.1.items, item.InRange) ∧ (∀ r ∈ lastOrdered.1, r.committed = true) ∧
      ∃ s s', fullTables.db.row .stock (1, 1) = some s ∧ lastOrdered.2.db.row .stock (1, 1) = some s' ∧
        (s.sQuantity, s.sYtd) = (50, 2147483647) ∧ (s'.sQuantity, s'.sYtd) = (49, -2147483648) ∧
        s'.sYtd ≠ s.sYtd + totalQuantity (linesAt (1, 1) (runLines [lastOrder])) ∧
        s'.sQuantity ≠ 10 + (s.sQuantity - 10 - (s'.sYtd - s.sYtd)) % 91 := by
  have hrow : ((fullTables.db.row .stock (1, 1)).map fun s => (s.sQuantity, s.sYtd)) = some (50, 2147483647) := by
    decide +kernel
  have hrow' : ((lastOrdered.2.db.row .stock (1, 1)).map fun s => (s.sQuantity, s.sYtd)) =
      some (49, -2147483648) := by decide +kernel
  obtain ⟨s, hs, hcolumns⟩ := Option.map_eq_some_iff.mp hrow
  obtain ⟨s', hs', hcolumns'⟩ := Option.map_eq_some_iff.mp hrow'
  have hsound : fullTables.Sound := (insertAll_onDb Tables.empty_sound (Option.some_get insertAll_fullDatabase).symm).1
  refine ⟨hsound, fullTables_stocked, by rw [Prod.mk.eta, lastOrdered, Option.some_get], ?_, by decide +kernel, s, s', hs, hs',
    hcolumns, hcolumns', ?_⟩
  · simp [lastOrder, Txn.Orders, Txn.items, NewOrderItem.InRange]
  · obtain ⟨hq, hytd⟩ := Prod.mk.inj hcolumns
    obtain ⟨hq', hytd'⟩ := Prod.mk.inj hcolumns'
    rw [hq, hytd, hq', hytd']
    decide

end TpccBench
