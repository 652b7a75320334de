import TpccBench.Client.Requests
import TpccBench.Db.Placing
import TpccBench.Db.Stays
import TpccBench.Load.Names
import TpccBench.Load.OrderStatus
import TpccBench.Load.Window

/-!
# Tables that serve a client

What a client may ask for is there: the warehouses, the stock, the districts with their orders in order, and
the customers, by id and by last name, each of which owns an order. A load with the parameters of the client
leaves such tables (`TpccBench.TPCCGenerator.Loads.serves`), and every transaction keeps them so
(`TpccBench.TPCCClient.Serves.commit`): what stays there is said of a step, and the bound of the order ids is
the only thing that is asked of it.
-/

namespace TpccBench

open Prog

variable {F : Type}

namespace TPCCClient

variable (client : TPCCClient)

/-- **A district that serves its customers**: the last twenty orders are there, and the items are there that
an order has lines of. -/
structure ServesDistrict (db : Db F) (w d : ℤ) : Prop where
  pipeline : ∃ k n, db.Pipeline w d k n ∧ 21 ≤ n ∧ n ≤ 143165
  customer {c : ℤ} : c ∈ idsTo client.customersPerDistrict → (db.row .customer (w, d, c)).isSome
  owns {c : ℤ} : (db.row .customer (w, d, c)).isSome → ∃ o order, db.book w d o = some order ∧ order.oCId = c
  count {o : ℤ} {order : GivenOrder F} : db.book w d o = some order → 0 ≤ order.oOlCnt
  item {o : ℤ} {order : GivenOrder F} : db.book w d o = some order → ∀ line, some line ∈ order.lines →
    line.olIId ∈ idsTo client.numItems

/-- **Tables that serve a client.** -/
structure Serves (t : Tables F) : Prop where
  sound : t.Sound
  items : t.items.length = client.numItems
  warehouse {w : ℤ} : w ∈ idsTo client.numWarehouses → (t.db.row .warehouse w).isSome
  stock {w i : ℤ} : w ∈ idsTo client.numWarehouses → i ∈ idsTo client.numItems → (t.db.row .stock (w, i)).isSome
  orderly (w : ℤ) {d : ℤ} : d ∈ Tx.districtIds → t.db.Orderly w d
  district {w d : ℤ} : w ∈ idsTo client.numWarehouses → d ∈ idsTo client.districtsPerWarehouse →
    client.ServesDistrict t.db w d
  chooses {w d : ℤ} {who : CustomerChoice} : w ∈ idsTo client.numWarehouses →
    d ∈ idsTo client.districtsPerWarehouse → client.Names who → ∃ c, who.Chooses w d t c

variable {client} {w d : ℤ}

theorem districtIds_of_mem (hd : d ∈ idsTo client.districtsPerWarehouse) : d ∈ Tx.districtIds := by
  obtain ⟨h₁, h₂⟩ := mem_idsTo.mp hd
  have hle := client.districts_range.2
  exact mem_districtIds ⟨h₁, by rw [District.numPerWarehouse]; omega⟩

variable [Money F] {db db' : Db F} {t t' : Tables F} {x : Txn F} {r : Reply F}

/-- **A step** leaves the district to serve its customers, while the ids of its orders fit. -/
theorem ServesDistrict.step (h : client.ServesDistrict db w d) (hs : Db.Step x r db db') (hk : db.Keyed)
    (hitems : db.items.length = client.numItems) (hd : d ∈ Tx.districtIds) (hc : x.Carries)
    (hfit : x.home = some (w, d) → r.committed = true → ∀ n, db.NextOId w d n → n ≤ 143164) :
    client.ServesDistrict db' w d := by
  obtain ⟨k, n, hp, hlow, hhigh⟩ := h.pipeline
  -- an order of the book was there, or its items are
  have hbook : ∀ o order, db'.book w d o = some order → db.book w d o = some order ∨
      ∃ (c : ℤ) (items : List NewOrderItem), order = .ofItems db.items c items ∧
        ∀ item ∈ items, item.iId ∈ idsTo client.numItems := fun o order horder => by
    rcases hs.book hk hd (w := w) with hsame | ⟨c, items, p, hvalid, hplaced⟩
    · exact Or.inl ((hsame o).symm.trans horder)
    · rw [hplaced] at horder
      split at horder
      · refine Or.inr ⟨c, items, (Option.some.inj horder).symm, fun item hitem => ?_⟩
        exact mem_idsTo.mpr (hitems ▸ hvalid.item_mem hitem)
      · exact Or.inl horder
  refine ⟨?_, ?_, ?_, ?_, ?_⟩
  · obtain ⟨k', n', -, hn, -, hp'⟩ := hp.step hc (hs.at hk w hd)
    refine ⟨k', n', hp', by omega, ?_⟩
    have hnext := Option.some.inj ((hs.nextOId hp.nextOId).symm.trans hp'.nextOId)
    split at hnext
    · next hplaces =>
      have := hfit hplaces.1 hplaces.2 n hp.nextOId
      omega
    · omega
  · intro c hcid
    exact (hs.customer _).trans (h.customer hcid)
  · -- an order that is placed has another id
    intro c hcust
    obtain ⟨o, order, horder, hcid⟩ := h.owns ((hs.customer _).symm.trans hcust)
    refine ⟨o, order, ?_, hcid⟩
    rcases hs.book hk hd (w := w) with hsame | ⟨c', items, p, hvalid, hplaced⟩
    · exact (hsame o).trans horder
    · have hlt := (hp.toQueue.book_isSome.mp (Option.isSome_of_eq_some horder)).2
      rwa [hplaced, if_neg (by rw [(hp.toQueue.place hvalid).1]; omega)]
  · intro o order horder
    rcases hbook o order horder with hthere | ⟨c, items, rfl, -⟩
    · exact h.count hthere
    · exact Int.natCast_nonneg _
  · intro o order horder line hline
    rcases hbook o order horder with hthere | ⟨c, items, rfl, hmem⟩
    · exact h.item hthere line hline
    · obtain ⟨item, hitem, heq⟩ := List.mem_map.mp hline
      obtain rfl := Option.some.inj heq
      exact hmem item hitem

/-- **The tables go on to serve** the client, with at most one more order in a district. -/
structure GoesOn (client : TPCCClient) (t t' : Tables F) : Prop where
  serves : client.Serves t'
  nextOId {w d n : ℤ} : t.db.NextOId w d n → ∃ n' ≤ n + 1, t'.db.NextOId w d n'

omit [Money F] in
theorem GoesOn.refl (h : client.Serves t) : client.GoesOn t t := ⟨h, fun {w d n} hn => ⟨n, by omega, hn⟩⟩

/-- **A transaction** leaves the tables to serve the client, while the ids of the orders fit. -/
theorem Serves.commit (h : client.Serves t) {free : Option HashOrder} (hc : x.Carries)
    (hfit : ∀ w d, x.home = some (w, d) → r.committed = true → ∀ n, t.db.NextOId w d n → n ≤ 143164)
    (hrun : x.reply.commit free t = some (r, t')) : client.GoesOn t t' := by
  obtain ⟨hsound, hs⟩ := Txn.commit_step h.sound hrun
  have hk := h.sound.keyed
  refine ⟨⟨hsound, ?_, ?_, ?_, ?_, ?_, ?_⟩, ?_⟩
  · exact (congrArg List.length hs.sameTexts.items).trans h.items
  · intro w hw
    exact hs.warehouse (h.warehouse hw)
  · intro w i hw hi
    exact (hs.stock _).trans (h.stock hw hi)
  · intro w d hd
    exact (h.orderly w hd).step hc (hs.at hk w hd)
  · intro w d hw hd
    exact (h.district hw hd).step hs hk h.items (districtIds_of_mem hd) hc (hfit w d)
  · intro w d who hw hd hwho
    obtain ⟨c, hchooses⟩ := h.chooses hw hd hwho
    exact ⟨c, Txn.commit_chooses h.sound hrun hchooses⟩
  · intro w d n hn
    refine ⟨_, ?_, hs.nextOId hn⟩
    split <;> omega

/-- The client is built with the parameters of a load. -/
structure BuiltWith (client : TPCCClient) (g : TPCCGenerator) (warehouses : ℕ) : Prop where
  numItems : g.numItems = client.numItems
  numWarehouses : warehouses = client.numWarehouses
  districtsPerWarehouse : g.districtsPerWarehouse = client.districtsPerWarehouse
  customersPerDistrict : g.customersPerDistrict = client.customersPerDistrict

end TPCCClient

namespace TPCCGenerator

variable [Money F] {g : TPCCGenerator} {warehouses : ℕ} {t : Tables F} {client : TPCCClient} {w d o : ℤ}

/-- The lines of a loaded order have items that there are. -/
theorem Loads.book_item (ht : g.Loads warehouses t) {order : GivenOrder F} (hbook : t.db.book w d o = some order)
    {line : GivenLine F} (hline : some line ∈ order.lines) : line.olIId ∈ idsTo 100000 := by
  obtain ⟨-, x, hx, hdb⟩ := ht.exists_db
  rw [hdb] at hbook
  obtain ⟨row, -, rfl⟩ := Option.map_eq_some_iff.mp hbook
  obtain ⟨i, -, hgiven⟩ := List.mem_map.mp hline
  obtain ⟨ol, hol, rfl⟩ := Option.map_eq_some_iff.mp hgiven
  obtain ⟨⟨hw, hd, ho, hn⟩, rfl⟩ := db_orderLine_eq_some.mp hol
  obtain ⟨n, hitem⟩ := ((((hx.at hw).at hd).orderAt ho).lineAt hn).item
  simp only [OrderLine.given, hitem]
  exact mem_idsTo.mpr ⟨g.random.lower_le n (by decide), g.random.le_upper n (by decide)⟩

/-- **A load serves the clients** that are built with its parameters. -/
theorem Loads.serves (ht : g.Loads warehouses t) (hb : client.BuiltWith g warehouses)
    (hitems : g.numItems = Item.numItems) (hcust : 20 ≤ g.customersPerDistrict) : client.Serves t := by
  obtain ⟨hs, x, hx, hdb⟩ := ht.exists_db
  obtain ⟨hnumItems, rfl, hdistricts, hcustomers⟩ := hb
  rw [hitems] at hnumItems
  refine ⟨hs, ?_, ?_, ?_, ?_, ?_, ?_⟩
  · have hlen : t.items.length = ((idsTo g.numItems).map x.item).length := congrArg (fun db => db.items.length) hdb
    rw [hlen, List.length_map, length_idsTo, hitems, hnumItems]
  · intro w hw
    rw [hdb]
    exact Option.isSome_of_eq_some (if_pos hw)
  · intro w i hw hi
    rw [hdb]
    exact db_stock_isSome.mpr ⟨hw, hitems.trans hnumItems ▸ hi⟩
  · intro w d _
    exact ht.orderly w d
  · intro w d hw hd
    rw [← hdistricts] at hd
    have hp := hx.pipeline hw hd
    have hrange := g.customers_range.2
    rw [← hdb] at hp
    refine ⟨⟨_, _, hp, by omega, by omega⟩, ?_, ?_, ht.book_cnt, ?_⟩
    · intro c hc
      rw [hdb]
      exact db_customer_isSome.mpr ⟨hw, hd, hcustomers ▸ hc⟩
    · intro c hc
      rw [hdb, db_customer_isSome] at hc
      exact (ht.book_owns hw hd hc.2.2).exists
    · intro o order hbook line hline
      rw [← hnumItems]
      exact ht.book_item hbook hline
  · intro w d who hw hd hwho
    rw [← hdistricts] at hd
    cases hwho with
    | @id c _ => exact ⟨c, rfl⟩
    | lastName hlow hhigh hname => exact ht.chooses hw hd ⟨hlow, hcustomers ▸ hhigh⟩ hname

end TPCCGenerator

end TpccBench
