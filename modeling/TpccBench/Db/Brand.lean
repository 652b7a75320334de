import TpccBench.Db.Distributed
import TpccBench.Db.Pipeline

/-!
# What is reported of a line

A new order reports a line as a brand if its item and its stock row are marked
(`TpccBench.Db.Branded`). The marks are in columns that no transaction writes, so they are those of the
database a run has started with.
-/

namespace TpccBench

open Prog

variable {F : Type}

/-! ### What no transaction writes -/

theorem Stock.orderedAll_text (ls : List SupplyLine) (s : Stock) : (s.orderedAll ls).text = s.text := by
  induction ls generalizing s with
  | nil => rfl
  | cons l ls ih =>
    rw [orderedAll_cons, ih]
    rfl

/-- The databases have the same items, and the same texts in their stock rows. -/
structure Db.SameTexts (db db' : Db F) : Prop where
  items : db'.items = db.items
  text (id : ℤ × ℤ) : (db'.row .stock id).map Stock.text = (db.row .stock id).map Stock.text

namespace Db.SameTexts

variable {db db₁ db' : Db F}

theorem trans (h : db.SameTexts db₁) (h' : db₁.SameTexts db') : db.SameTexts db' :=
  ⟨h'.items.trans h.items, fun id => (h'.text id).trans (h.text id)⟩

theorem of_stock (hitems : db'.items = db.items) (hstock : db'.row .stock = db.row .stock) : db.SameTexts db' :=
  ⟨hitems, fun id => by rw [hstock]⟩

theorem takeStock (ls : List SupplyLine) : db.SameTexts (db.takeStock ls) where
  items := rfl
  text id := by
    rw [Db.takeStock_stock, Option.map_map]
    refine congrFun (congrArg Option.map (funext fun s => ?_)) _
    exact s.orderedAll_text _

/-- The stock row, before and after. -/
theorem stock (h : db.SameTexts db') {id : ℤ × ℤ} {s' : Stock} (hs : db'.row .stock id = some s') :
    ∃ s, db.row .stock id = some s ∧ s.text = s'.text := by
  have htext := h.text id
  rw [hs, Option.map_some] at htext
  exact Option.map_eq_some_iff.mp htext.symm

end Db.SameTexts

variable [Money F] {db db' : Db F}

/-- **No transaction** writes an item or a text. -/
theorem Db.Step.sameTexts {x : Txn F} {r : Reply F} (h : Db.Step x r db db') : db.SameTexts db' := by
  cases h with
  | refuse => exact .of_stock rfl rfl
  | place =>
    exact (Db.SameTexts.of_stock Placement.apply_items (Placement.apply_row_of_ne (by decide))).trans (.takeStock _)
  | take => exact .takeStock _
  | pay => exact .of_stock rfl (by rw [Db.setRow_row_of_ne _ (by decide), PaidHome.apply_row_of_ne (by decide)])
  | payHome => exact .of_stock rfl (PaidHome.apply_row_of_ne (by decide))
  | payRemote => exact .of_stock rfl (Db.setRow_row_of_ne _ (by decide))
  | deliver hships => exact .of_stock hships.items (hships.row_of_ne (by decide))

/-! ### What is reported -/

/-- **A line is reported as a brand** if its stock row and its item are marked. -/
def Db.Branded (db : Db F) (item : NewOrderItem) (info : ItemInfo F) : Prop :=
  ∃ s tuple, db.row .stock (item.olSupplyWId, item.iId) = some s ∧ 1 ≤ item.iId ∧
    db.items[(item.iId - 1).toNat]? = some tuple ∧
    (info.brandGeneric = ItemInfo.brand ↔ isOriginal s.sData.chars = true ∧ isOriginal tuple.iData.chars = true)

omit [Money F] in
/-- **What does not depend on the quantities** stays when they are combined. -/
theorem newOrderCombine_keeps {R : NewOrderItem → ItemInfo F → Prop} {items : List NewOrderItem} {qs : List ℤ}
    {output out : NewOrderOutput F} (hrun : newOrderCombine qs output = some out)
    (hR : List.Forall₂ R items output.items)
    (hq : ∀ item info q, R item info → R item { info with sQuantity := q }) : List.Forall₂ R items out.items := by
  obtain ⟨_, hguard, -⟩ := Option.bind_eq_some_iff.mp hrun
  have hlen : qs.length = output.items.length := by simpa using hguard
  exact forall₂_newOrderCombine (S := fun _ _ => True) hrun hR
    (List.forall₂_iff_zip.mpr ⟨hR.length_eq.trans hlen.symm, fun _ => trivial⟩)
    (fun item info q hinfo _ _ => hq item info q hinfo) fun _ _ hinfo _ => hinfo

namespace Db

variable {w d c : ℤ} {items : List NewOrderItem} {now : List Char} {output out : NewOrderOutput F}

/-- What is reported before the quantities are combined. -/
theorem Reported.branded {p : Placement F w d c items} (hp : p.Valid db) {infos : List (ItemInfo F)}
    (h : db.Reported p.entries infos) : List.Forall₂ db.Branded items infos := by
  rw [← hp.items, List.forall₂_map_left_iff]
  have hboth := (List.forall₂_and_left (p := fun e => e ∈ p.entries) _ _).mpr ⟨fun e he => he, h.forall₂⟩
  refine hboth.imp ?_
  rintro e info ⟨he, s, hs, rfl⟩
  obtain ⟨hid, htuple⟩ := hp.tuples e he
  refine ⟨s, e.2.1, hs, hid, htuple, ?_⟩
  simp only [lineInfo]
  split
  · next hboth => simpa using hboth
  · next hnot => simpa [ItemInfo.brand, ItemInfo.generic] using hnot

theorem newOrderHome_branded (hk : db.Keyed)
    (h : newOrderHome w d c items now output db = some ((true, out), db')) :
    List.Forall₂ db.Branded items out.items := by
  rw [newOrderHome] at h
  obtain ⟨⟨qs, out₁⟩, db₁, hhome, hret⟩ := bind_eq_some h
  rcases newOrderHomeUncombined_eq_some hk hhome with ⟨rfl, -⟩ | ⟨p, q, rfl, hp, -, hinfos, -⟩
  · exact absurd (congrArg (fun r => r.1.1) (Option.some.inj hret)) (by simp)
  · obtain ⟨combined, db₂, hlift, hret⟩ := bind_eq_some hret
    obtain ⟨hcombine, rfl⟩ := lift_eq_some hlift
    obtain ⟨heq, -⟩ := Prod.mk.inj (Option.some.inj hret)
    obtain rfl := (Prod.mk.inj heq).2
    exact newOrderCombine_keeps hcombine (hinfos.branded hp) fun _ _ _ hinfo => hinfo

omit [Money F] in
theorem newOrderRemotes_keeps {R : NewOrderItem → ItemInfo F → Prop} {remotes : List ℤ}
    (hR : List.Forall₂ R items output.items)
    (hq : ∀ item info q, R item info → R item { info with sQuantity := q })
    (h : newOrderRemotes w items remotes output db = some (out, db')) : List.Forall₂ R items out.items := by
  induction remotes generalizing output db with
  | nil =>
    obtain ⟨rfl, rfl⟩ := Prod.mk.inj (Option.some.inj h)
    exact hR
  | cons remote remotes ih =>
    rw [newOrderRemotes, List.foldlM_cons] at h
    obtain ⟨out₁, db₁, hone, h⟩ := bind_eq_some h
    obtain ⟨qs, db₂, hremote, hone⟩ := bind_eq_some hone
    cases qs with
    | none => exact absurd hone (by simp [failure, StateT.failure])
    | some q =>
      obtain ⟨hcombine, rfl⟩ := lift_eq_some hone
      exact ih (newOrderCombine_keeps hcombine hR hq) h

theorem newOrder_branded (hk : db.Keyed) {o : HashOrder}
    (h : newOrder o w d c items now output db = some ((true, out), db')) :
    List.Forall₂ db.Branded items out.items := by
  rw [newOrder] at h
  obtain ⟨⟨home, out₁⟩, db₁, hhome, hret⟩ := bind_eq_some h
  cases home with
  | false => exact absurd (congrArg (fun r => r.1.1) (Option.some.inj hret)) (by simp)
  | true =>
    obtain ⟨out₂, db₂, hremotes, hret⟩ := bind_eq_some hret
    obtain ⟨heq, rfl⟩ := Prod.mk.inj (Option.some.inj hret)
    obtain rfl := (Prod.mk.inj heq).2
    exact newOrderRemotes_keeps (newOrderHome_branded hk hhome) (fun _ _ _ hinfo => hinfo) hremotes

end Db

/-- **A committed order** reports its brands. -/
theorem Txn.Places.branded {t t' : Tables F} (ht : t.Sound) {w d c : ℤ} {items : List NewOrderItem} {x : Txn F}
    (hx : x.Places w d c items) {free : Option HashOrder} {out : NewOrderOutput F}
    (h : x.reply.commit free t = some (.newOrder true out, t')) : List.Forall₂ t.db.Branded items out.items := by
  obtain ⟨-, y, hon, hy⟩ := Txn.commit_onDb ht h
  cases hx with
  | newOrder o now output =>
    cases hon with
    | newOrder =>
      obtain ⟨⟨result, out₁⟩, db₁, hrun, hret⟩ := bind_eq_some hy
      obtain ⟨heq, rfl⟩ := Prod.mk.inj (Option.some.inj hret)
      obtain ⟨rfl, rfl⟩ := Reply.newOrder.inj heq
      exact Db.newOrder_branded ht.keyed hrun
  | newOrderHome now output =>
    cases hon with
    | newOrderHome =>
      obtain ⟨⟨result, out₁⟩, db₁, hrun, hret⟩ := bind_eq_some hy
      obtain ⟨heq, rfl⟩ := Prod.mk.inj (Option.some.inj hret)
      obtain ⟨rfl, rfl⟩ := Reply.newOrder.inj heq
      exact Db.newOrderHome_branded ht.keyed hrun

/-- **After a run** too, the marks are those of the database it has started with. -/
theorem branded_of_run {t t₁ t' : Tables F} (ht : t.Sound) {calls : List (Txn F × Option HashOrder)}
    {replies : List (Reply F)} (hrun : commitAll calls t = some (replies, t₁)) {w d c : ℤ}
    {items : List NewOrderItem} {x : Txn F} (hx : x.Places w d c items) {free : Option HashOrder}
    {out : NewOrderOutput F} (h : x.reply.commit free t₁ = some (.newOrder true out, t')) :
    List.Forall₂ t.db.Branded items out.items := by
  obtain ⟨ht₁, htexts⟩ := commitAll_induction (I := fun _ _ db => t.db.SameTexts db) ht
    (Db.SameTexts.of_stock rfl rfl) (fun _ _ _ _ _ _ _ _ hI hs => hI.trans hs.sameTexts) hrun
  refine (hx.branded ht₁ h).imp ?_
  rintro item info ⟨s, tuple, hs, hid, htuple, hbrand⟩
  obtain ⟨s₀, hs₀, htext⟩ := htexts.stock hs
  rw [htexts.items] at htuple
  exact ⟨s₀, tuple, hs₀, hid, htuple, by rw [(Prod.mk.inj htext).2]; exact hbrand⟩

end TpccBench
