import TpccBench.Db.Buffer
import TpccBench.Db.Pipeline
import TpccBench.Db.Refusal

/-!
# An order that can be placed

In a district whose orders are in a queue, what a new order needs is a warehouse, a customer, and the
stock of its items: nothing is where its rows go (`TpccBench.Db.Queue.placeable`). So a call of `newOrder`
ends, and answers whether all the items are there (`TpccBench.Tables.Orderable.commit_newOrder`).
-/

namespace TpccBench

open Prog

variable {F : Type}

/-- A text can be copied for every district. -/
theorem Stock.distInfo_isSome (s : Stock) {d : ℤ} (hd : validDistrict d) : (s.distInfo d).isSome := by
  obtain ⟨h₁, h₂⟩ : 1 ≤ d ∧ d ≤ 10 := hd
  rw [distInfo]
  split
  · rfl
  · rw [if_pos (by omega)]
    rfl

/-- The items are numbered from one on. -/
theorem Tables.hasItem_iff {t : Tables F} {id : ℤ} (h : 1 ≤ id) : t.HasItem id ↔ id ≤ t.items.length := by
  rw [Tables.HasItem, Option.isSome_iff_ne_none, ne_eq, List.getElem?_eq_none_iff, not_le]
  omega

variable [Money F]

/-- The items of an order that is placed are there. -/
theorem Placement.Valid.item_mem {db : Db F} {w d c : ℤ} {items : List NewOrderItem} {p : Placement F w d c items}
    (hp : p.Valid db) {item : NewOrderItem} (hitem : item ∈ items) : 1 ≤ item.iId ∧ item.iId ≤ db.items.length := by
  rw [← hp.items] at hitem
  obtain ⟨e, he, rfl⟩ := List.mem_map.mp hitem
  obtain ⟨hlow, hget⟩ := hp.tuples e he
  obtain ⟨hlt, -⟩ := List.getElem?_eq_some_iff.mp hget
  exact ⟨hlow, by omega⟩

namespace Db

variable {db : Db F} {w d c k n : ℤ} {items : List NewOrderItem}

/-- A line that can be added, as a row. -/
theorem Ready.exists_lineFor {o : ℤ} {e : (NewOrderItem × Item F × ItemInfo F) × ℕ} (h : db.Ready w d o e) :
    ∃ line, db.LineFor w d o e line := by
  obtain ⟨s, hs, hdist⟩ := h.stock
  obtain ⟨olDistInfo, hdist⟩ := Option.isSome_iff_exists.mp hdist
  exact ⟨_, ⟨s, olDistInfo, hs, hdist, rfl⟩, rowLinks_isSome (by decide) h.key, h.vacant⟩

/-- **The rows of an order that can be placed.** -/
theorem Queue.exists_placement (h : db.Queue w d k n) (hk : db.Keyed) (hn : n ≤ 143164)
    (hware : (db.row .warehouse w).isSome) (hcust : (db.row .customer (w, d, c)).isSome) (hlen : items.length ≤ 15)
    (hitems : ∀ item ∈ items, 1 ≤ item.iId ∧ (db.items[(item.iId - 1).toNat]?).isSome) (hstock : db.Stocks items)
    {now : List Char} (hnow : now.length = datetimeSize) : ∃ p : Placement F w d c items, p.Valid db := by
  obtain ⟨dist, hdist, rfl⟩ := Option.map_eq_some_iff.mp h.nextOId
  have hbounds := h.bounds
  obtain ⟨hw, hd, hc⟩ := primary_customer_iff.mp (hk.keys (Option.eq_some_of_isSome hcust))
  have ho : validOrder dist.dNextOId := ⟨by omega, by rw [Order.maxOrderId]; omega⟩
  -- nothing is at the next id
  have horder : db.row .order (w, d, dist.dNextOId) = none := by
    rw [← Option.not_isSome_iff_eq_none, h.order]
    omega
  have hnew : db.row .newOrder (w, d, dist.dNextOId) = none := by
    rw [← Option.not_isSome_iff_eq_none, h.newOrder]
    omega
  have hline : ∀ i : ℤ, db.row .orderLine (w, d, dist.dNextOId, i) = none := fun i => by
    rw [← Option.not_isSome_iff_eq_none]
    intro hsome
    have := (h.order _).mp (h.lineOrder hsome)
    omega
  let entry (item : NewOrderItem) (hitem : item ∈ items) : NewOrderItem × Item F × ItemInfo F :=
    (item, (db.items[(item.iId - 1).toNat]?).get (hitems item hitem).2, .new)
  have hids : (items.attach.map fun e => entry e.1 e.2).map Prod.fst = items := by
    rw [List.map_map]
    exact List.attach_map_subtype_val items
  have hready : ∀ e ∈ (items.attach.map fun e => entry e.1 e.2).zipIdx, db.Ready w d dist.dNextOId e := fun e he => by
    obtain ⟨hlt, heq⟩ := List.mem_zipIdx' he
    have hin : e.1 ∈ items.attach.map fun e => entry e.1 e.2 := heq ▸ List.getElem_mem hlt
    obtain ⟨⟨item, hitem⟩, -, heq⟩ := List.mem_map.mp hin
    obtain ⟨s, hs⟩ := Option.isSome_iff_exists.mp (hstock item hitem)
    have hitem₁ : e.1.1 = item := by rw [← heq]
    rw [List.length_map, List.length_attach] at hlt
    refine ⟨⟨s, hitem₁ ▸ hs, s.distInfo_isSome hd⟩, hitem₁ ▸ hk.keys hs, ?_, hline _⟩
    exact primary_orderLine_iff.mpr ⟨hw, hd, ho, by rw [validLine, Order.maxOlCnt]; omega,
      orderLineKeyFits_of_le hn _ _ _⟩
  obtain ⟨lines, hlines⟩ := exists_forall₂ fun e he => (hready e he).exists_lineFor
  refine ⟨⟨dist, ⟨now, hnow.le⟩, _, lines⟩, hdist, hcust, hware, hids, fun e he => ?_, ?_, ?_, horder, hnew, hlines⟩
  · obtain ⟨⟨item, hitem⟩, -, rfl⟩ := List.mem_map.mp he
    exact ⟨(hitems item hitem).1, (Option.some_get _).symm⟩
  · exact rowLinks_order_isSome hw hd hc ho (orderKeyFits_of_le hn w d)
  · exact rowLinks_isSome (by decide) (primary_newOrder_iff.mpr ⟨hw, hd, ho⟩)

theorem Queue.placeable (h : db.Queue w d k n) (hk : db.Keyed) (hn : n ≤ 143164) (hware : (db.row .warehouse w).isSome)
    (hcust : (db.row .customer (w, d, c)).isSome) (hlen : items.length ≤ 15)
    (hitems : ∀ item ∈ items, 1 ≤ item.iId ∧ (db.items[(item.iId - 1).toNat]?).isSome) (hstock : db.Stocks items)
    {now : List Char} (hnow : now.length = datetimeSize) : db.Placeable w d c items now :=
  ⟨hnow, h.exists_placement hk hn hware hcust hlen hitems hstock hnow⟩

end Db

variable {t : Tables F} {w d c k n : ℤ} {items : List NewOrderItem} {now : List Char}

omit [Money F] in
/-- **The rows an order starts from**, in a district whose orders are in a queue. -/
theorem Tables.Sound.orderable (ht : t.Sound) (h : t.db.Queue w d k n) (hn : n ≤ 143165)
    (hcust : (t.db.row .customer (w, d, c)).isSome) : ∃ dist, t.Orderable w d c dist := by
  obtain ⟨dist, hdist, rfl⟩ := Option.map_eq_some_iff.mp h.nextOId
  have hbounds := h.bounds
  obtain ⟨hw, hd, -⟩ := primary_customer_iff.mp (ht.keyed.keys (Option.eq_some_of_isSome hcust))
  refine ⟨dist, ht, hdist, hcust, primary_order_iff.mpr ⟨hw, hd, ⟨by omega, by rw [Order.maxOrderId]; omega⟩, ?_⟩, ?_⟩
  · exact Or.inl (by omega)
  · rw [← Option.not_isSome_iff_eq_none, h.order]
    omega

/-- **An order is answered**: it is placed if its items are there, and refused if one is missing. -/
theorem Tables.Orderable.commit_newOrder {dist : District F} (ht : t.Orderable w d c dist)
    (hids : ∀ item ∈ items, 1 ≤ item.iId)
    (hp : (∀ item ∈ items, t.HasItem item.iId) → t.db.Placeable w d c items now) (o : HashOrder) :
    ∃ result out t', (Tx.newOrder o w d c items now .new).commit none t = some ((result, out), t') ∧
      (result = true ↔ ∀ item ∈ items, t.HasItem item.iId) := by
  have hrefused := ht.newOrder_refuses_iff hids o now .new none
  by_cases hall : ∀ item ∈ items, t.HasItem item.iId
  · obtain ⟨hnow, p, hvalid⟩ := hp hall
    obtain ⟨q, out, db', hhome⟩ := Db.newOrderHomeUncombined_isSome ht.sound.keyed hvalid hnow .new
    have hnew := Db.newOrder_isSome ht.sound.keyed (fun _ h => absurd h List.not_mem_nil) hhome o
    rw [← rel_isSome ((newOrder_refines o w d c items now .new).commit (newOrder_journaled o w d c items now .new)
      ht.sound none)] at hnew
    obtain ⟨⟨⟨result, out⟩, t'⟩, hrun⟩ := Option.isSome_iff_exists.mp hnew
    refine ⟨result, out, t', hrun, fun _ => hall, fun _ => ?_⟩
    by_contra hfalse
    obtain rfl := Bool.eq_false_of_not_eq_true hfalse
    obtain ⟨⟨r, call⟩, hrun, heq⟩ := Option.map_eq_some_iff.mp hrun
    obtain ⟨rfl, -⟩ := Prod.mk.inj heq
    obtain ⟨⟨item, hitem, hmissing⟩, -⟩ := (hrefused call).mp ⟨out, hrun⟩
    exact hmissing (hall item hitem)
  · have hmissing : ∃ item ∈ items, ¬t.HasItem item.iId := by simpa using hall
    obtain ⟨out, hrun⟩ := (hrefused ⟨t, none⟩).mpr ⟨hmissing, rfl⟩
    refine ⟨false, out, t, ?_, fun h => absurd h (by decide), fun h => absurd h hall⟩
    rw [Tx.commit, hrun]
    rfl

end TpccBench
