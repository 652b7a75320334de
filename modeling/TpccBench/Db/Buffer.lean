import TpccBench.Db.Distributed

/-!
# The buffer that is reported in

A new order reports in an object of the caller. It gives every field of it a value except for the quantities of
elements that are there, and these are expected to be zero (`TpccBench.bufferFree_iff`). An object in which an
earlier order was reported does not have that.
-/

namespace TpccBench

open Prog

variable {F : Type}

namespace Db

/-! ### An order that can be placed is placed -/

section Progress

variable {db : Db F} {w d c o : ℤ} {items : List NewOrderItem}

theorem findAndValidateItems_apply {tuples : List (Item F)} (h : List.Forall₂ (fun (item : NewOrderItem) tuple =>
    1 ≤ item.iId ∧ db.items[(item.iId - 1).toNat]? = some tuple) items tuples) :
    findAndValidateItems items db = some (some tuples, db) := by
  induction h with
  | nil => rfl
  | cons hitem _ ih =>
    rw [findAndValidateItems, bind_apply, findItem, if_pos hitem.1, hitem.2, Option.bind_some]
    show (_ >>= fun _ => _ : Dx F _) db = _
    rw [bind_apply, ih]
    rfl

variable [Money F]

/-- A line that can be added. -/
structure Ready (db : Db F) (w d o : ℤ) (e : (NewOrderItem × Item F × ItemInfo F) × ℕ) : Prop where
  stock : ∃ s, db.row .stock (e.1.1.olSupplyWId, e.1.1.iId) = some s ∧ (s.distInfo d).isSome
  find : (primary .stock (e.1.1.olSupplyWId, e.1.1.iId)).isSome
  key : (primary .orderLine (w, d, o, (e.2 : ℤ) + 1)).isSome
  vacant : db.row .orderLine (w, d, o, (e.2 : ℤ) + 1) = none

theorem addOrderLine_apply {e : (NewOrderItem × Item F × ItemInfo F) × ℕ} (h : db.Ready w d o e) :
    ∃ info line, addOrderLine w d o e db =
      some (info, db.setRow .orderLine (w, d, o, (e.2 : ℤ) + 1) (some line)) := by
  obtain ⟨s, hs, hdist⟩ := h.stock
  obtain ⟨olDistInfo, hdist⟩ := Option.isSome_iff_exists.mp hdist
  refine ⟨lineInfo s e.1, .placed w d o (e.2 + 1) e.1.1 (lineInfo s e.1).olAmount olDistInfo, ?_⟩
  have hlinks : (rowLinks .orderLine (.placed w d o (e.2 + 1) e.1.1 (lineInfo s e.1).olAmount olDistInfo :
      OrderLine F)).isSome := rowLinks_isSome (by decide) h.key
  have hfind : Db.find .stock (e.1.1.olSupplyWId, e.1.1.iId) db = some ((), db) := if_pos h.find
  rw [addOrderLine, bind_apply, hfind, Option.bind_some, bind_apply, get_apply hs, Option.bind_some, bind_apply,
    lift_apply, hdist, Option.map_some, Option.bind_some, bind_apply, insert_apply hlinks rfl h.vacant]
  rfl

/-- **The loop over the lines** ends. -/
theorem addOrderLines_isSome {es : List (NewOrderItem × Item F × ItemInfo F)} {n : ℕ}
    (h : ∀ e ∈ es.zipIdx n, db.Ready w d o e) :
    ∃ infos db', (es.zipIdx n).mapM (addOrderLine w d o) db = some (infos, db') := by
  induction es generalizing n db with
  | nil => exact ⟨[], db, rfl⟩
  | cons e es ih =>
    rw [List.zipIdx_cons] at h ⊢
    obtain ⟨he, hes⟩ := List.forall_mem_cons.mp h
    obtain ⟨info, line, hone⟩ := addOrderLine_apply he
    -- the later lines have other numbers
    have hlater : ∀ e' ∈ es.zipIdx (n + 1),
        (db.setRow .orderLine (w, d, o, (n : ℤ) + 1) (some line)).Ready w d o e' := fun e' he' => by
      have hready := hes e' he'
      have hnum := (List.mem_zipIdx he').1
      refine ⟨?_, hready.find, hready.key, ?_⟩
      · rw [setRow_row_of_ne _ (by decide)]
        exact hready.stock
      · rw [setRow_row, if_neg fun heq => ?_]
        · exact hready.vacant
        · simp only [Prod.mk.injEq, true_and] at heq
          omega
    obtain ⟨infos, db', hrest⟩ := ih hlater
    refine ⟨info :: infos, db', ?_⟩
    rw [List.mapM_cons, bind_apply, hone, Option.bind_some, bind_apply, hrest]
    rfl

omit [Money F] in
theorem Ready.congr {db' : Db F} {e : (NewOrderItem × Item F × ItemInfo F) × ℕ} (h : db.Ready w d o e)
    (hstock : db'.row .stock = db.row .stock) (hline : db'.row .orderLine = db.row .orderLine) : db'.Ready w d o e :=
  ⟨by rw [hstock]; exact h.stock, h.find, h.key, by rw [hline]; exact h.vacant⟩

/-- What is known of the line of an item. -/
theorem ready_of_valid (hk : db.Keyed) {p : Placement F w d c items} (hp : p.Valid db)
    {e : (NewOrderItem × Item F × ItemInfo F) × ℕ} (he : items[e.2]? = some e.1.1) : db.Ready w d p.oId e := by
  obtain ⟨hlt, hitem⟩ := List.getElem?_eq_some_iff.mp he
  have hlen : p.entries.length = items.length := by simpa using congrArg List.length hp.items
  have hin : (p.entries[e.2], e.2) ∈ p.entries.zipIdx :=
    List.mem_zipIdx_iff_getElem?.mpr (List.getElem?_eq_getElem (by omega))
  obtain ⟨line, -, hline⟩ := exists_of_forall₂_right hp.lines.flip hin
  have hentry : p.entries[e.2].1 = e.1.1 := by
    have hget := congrArg (fun l => l[e.2]?) hp.items
    rw [he, List.getElem?_map, List.getElem?_eq_getElem (by omega), Option.map_some] at hget
    exact Option.some.inj hget
  have hid := hline.id
  obtain ⟨s, olDistInfo, hs, hdist, -⟩ := hline.placed
  rw [hentry] at hs
  refine ⟨⟨s, hs, by rw [hdist]; rfl⟩, hk.keys hs, ?_, hline.vacant⟩
  have hkey := primary_isSome (by decide) hline.links
  rwa [hid] at hkey

/-- **An order that can be placed is placed**, whatever is in the buffer. -/
theorem newOrderHomeUncombined_isSome (hk : db.Keyed) {p : Placement F w d c items} (hp : p.Valid db)
    {now : List Char} (hnow : now.length = datetimeSize) (output : NewOrderOutput F) :
    ∃ q out db', newOrderHomeUncombined w d c items now output db = some ((some q, out), db') := by
  obtain ⟨cust, hcust⟩ := Option.isSome_iff_exists.mp hp.customer
  obtain ⟨ware, hware⟩ := Option.isSome_iff_exists.mp hp.warehouse
  obtain ⟨oEntryD, hdate⟩ := Option.isSome_iff_exists.mp (CString.strcpy_isSome (n := datetimeSize) (s := now) (by omega))
  have htuples : findAndValidateItems items db = some (some (p.entries.map fun e => e.2.1), db) := by
    have hall : List.Forall₂ (fun (item : NewOrderItem) tuple => 1 ≤ item.iId ∧
        db.items[(item.iId - 1).toNat]? = some tuple) (p.entries.map Prod.fst) (p.entries.map fun e => e.2.1) := by
      rw [List.forall₂_map_left_iff, List.forall₂_map_right_iff]
      exact List.forall₂_same.mpr hp.tuples
    rw [hp.items] at hall
    exact findAndValidateItems_apply hall
  have hdid : rowId .district p.dist.ordered = (w, d) := (hk.ids hp.district :)
  have hfind : find .order (w, d, p.dist.dNextOId) db = some ((), db) :=
    if_pos (primary_isSome (by decide) hp.orderLinks)
  have hvacant : db.row .order (w, d, p.dist.dNextOId) = none := hp.order
  have hpeek : peek .order (w, d, p.dist.dNextOId) db = some (none, db) := by rw [peek, hvacant]
  have hassert : assert (S := Db F) ((none : Option Order).isNone = true) db = some ((), db) := if_pos rfl
  rw [newOrderHomeUncombined, bind_apply, find_apply hk hp.district, Option.bind_some, bind_apply,
    get_apply hp.district, Option.bind_some]
  dsimp only
  rw [bind_apply, hfind, Option.bind_some, bind_apply, hpeek, Option.bind_some]
  dsimp only
  rw [bind_apply, hassert, Option.bind_some, bind_apply, find_apply hk hcust, Option.bind_some, bind_apply,
    get_apply hcust, Option.bind_some, bind_apply, htuples, Option.bind_some]
  dsimp only
  rw [bind_apply, set_apply hdid, Option.bind_some]
  dsimp only
  have hk₁ := hk.write hp.district hdid
  generalize hdb₁ : db.setRow .district (w, d) (some p.dist.ordered) = db₁ at hk₁ ⊢
  have hrow₁ : ∀ {k : Kind}, k ≠ .district → db₁.row k = db.row k := fun {k} hne => by
    rw [← hdb₁, setRow_row_of_ne _ hne]
  have hware₁ : db₁.row .warehouse w = some ware := by rw [hrow₁ (by decide), hware]
  have hnowAssert : assert (S := Db F) (now.length = datetimeSize) db₁ = some ((), db₁) := if_pos hnow
  have horder₁ : db₁.row .order (w, d, p.dist.dNextOId) = none := by rw [hrow₁ (by decide), hvacant]
  have hlinks : (rowLinks (F := F) .order (.placed w d p.dist.dNextOId c items oEntryD)).isSome := hp.orderLinks
  have horder : insert .order (.placed w d p.dist.dNextOId c items oEntryD) db₁ = some ((), db₁.setRow .order
      (w, d, p.dist.dNextOId) (some (.placed w d p.dist.dNextOId c items oEntryD))) := insert_apply hlinks rfl horder₁
  rw [bind_apply, find_apply hk₁ hware₁, Option.bind_some, bind_apply, get_apply hware₁, Option.bind_some, bind_apply,
    lift_apply, hdate, Option.map_some, Option.bind_some, bind_apply, hnowAssert, Option.bind_some, bind_apply,
    horder, Option.bind_some]
  dsimp only
  have hk₂ := hk₁.setRow (primary_isSome (by decide) hlinks)
  generalize hdb₂ : db₁.setRow .order (w, d, p.dist.dNextOId)
    (some (.placed w d p.dist.dNextOId c items oEntryD)) = db₂
  have hk₂ : db₂.Keyed := hdb₂ ▸ hk₂
  have hnew₂ : db₂.row .newOrder (w, d, p.dist.dNextOId) = none := by
    rw [← hdb₂, setRow_row_of_ne _ (by decide), hrow₁ (by decide)]
    exact hp.newOrder
  have hlinks' : (rowLinks (F := F) .newOrder ⟨w, d, p.dist.dNextOId⟩).isSome := hp.newOrderLinks
  have hnew : insert .newOrder ⟨w, d, p.dist.dNextOId⟩ db₂ = some ((), db₂.setRow .newOrder (w, d, p.dist.dNextOId)
      (some ⟨w, d, p.dist.dNextOId⟩)) := insert_apply hlinks' rfl hnew₂
  rw [bind_apply, hnew, Option.bind_some]
  dsimp only
  have hk₃ := hk₂.setRow (primary_isSome (by decide) hlinks')
  generalize hdb₃ : db₂.setRow .newOrder (w, d, p.dist.dNextOId) (some ⟨w, d, p.dist.dNextOId⟩) = db₃
  have hk₃ : db₃.Keyed := hdb₃ ▸ hk₃
  have hrow₃ : ∀ {k : Kind}, k ∉ [Kind.district, .order, .newOrder] → db₃.row k = db.row k := fun {k} hne => by
    simp only [List.mem_cons, List.not_mem_nil, or_false, not_or] at hne
    rw [← hdb₃, setRow_row_of_ne _ hne.2.2, ← hdb₂, setRow_row_of_ne _ hne.2.1, hrow₁ hne.1]
  -- the lines, and what the part of the home warehouse finds after them
  generalize hentries : items.zip ((p.entries.map fun e => e.2.1).zip (output.items.take items.length ++
    List.replicate (items.length - output.items.length) ItemInfo.new)) = entries
  have hready : ∀ e ∈ entries.zipIdx, db₃.Ready w d p.dist.dNextOId e := fun e he => by
    refine (ready_of_valid hk hp ?_).congr (hrow₃ (by decide)) (hrow₃ (by decide))
    have hget := List.mem_zipIdx_iff_getElem?.mp he
    rw [← hentries] at hget
    exact (List.getElem?_zip_eq_some.mp hget).1
  obtain ⟨infos, db₄, hloop⟩ := addOrderLines_isSome hready
  obtain ⟨lines, hlines, rfl, -⟩ := addOrderLines_eq_some hloop
  have hk₄ : (db₃.addRows .orderLine lines).Keyed := hk₃.addRows fun line hl => by
    obtain ⟨e, -, he⟩ := exists_of_forall₂_right hlines hl
    exact primary_isSome (by decide) he.links
  have hitems₄ : db.items = (db₃.addRows .orderLine lines).items := by
    rw [addRows_items, ← hdb₃, ← hdb₂, ← hdb₁]
    rfl
  have hstocks : (db₃.addRows .orderLine lines).Stocks items := fun item hitem => by
    rw [addRows_row_of_ne (by decide), hrow₃ (by decide)]
    exact stocks_of_valid hp item hitem
  obtain ⟨q, db', hremote⟩ := newOrderRemote_isSome hk₄ (findAndValidateItems_congr hitems₄ htuples) hstocks w
  rw [bind_apply, hloop, Option.bind_some, bind_apply, hremote, Option.bind_some]
  exact ⟨q, _, db', rfl⟩

/-- **An order that can be placed**: the date fits, the rows it reads are there, and nothing is where it inserts. -/
def Placeable (db : Db F) (w d c : ℤ) (items : List NewOrderItem) (now : List Char) : Prop :=
  now.length = datetimeSize ∧ ∃ p : Placement F w d c items, p.Valid db

theorem newOrderHomeUncombined_now (w d c : ℤ) (items : List NewOrderItem) (now : List Char)
    (output : NewOrderOutput F) : Triple (fun _ => True) (newOrderHomeUncombined w d c items now output)
      fun r _ => r.1.isSome → now.length = datetimeSize := by
  rw [newOrderHomeUncombined]
  refine Triple.last fun _ => Triple.last fun dist => Triple.last fun _ => Triple.last fun existing => ?_
  refine Triple.last fun _ => Triple.last fun _ => Triple.last fun cust => Triple.last fun tuples => ?_
  cases tuples with
  | none => exact Triple.pure fun _ _ h => absurd h (by simp)
  | some tuples =>
    refine Triple.last fun _ => Triple.last fun _ => Triple.last fun ware => Triple.last fun oEntryD => ?_
    refine Triple.assert.bind fun _ => Triple.of_fact fun hnow => ?_
    exact fun _ _ _ _ _ _ => hnow

theorem placeable_of_uncombined (hk : db.Keyed) {now : List Char} {output out : NewOrderOutput F} {q : List ℤ}
    {db' : Db F} (h : newOrderHomeUncombined w d c items now output db = some ((some q, out), db')) :
    db.Placeable w d c items now := by
  refine ⟨newOrderHomeUncombined_now w d c items now output db trivial _ _ h rfl, ?_⟩
  rcases newOrderHomeUncombined_eq_some hk h with ⟨hnone, -⟩ | ⟨p, -, -, hp, -⟩
  · exact absurd hnone (by simp)
  · exact ⟨p, hp⟩

end Progress

end Db

/-! ### What is left of the buffer -/

/-- An element, but for its quantity. -/
def ItemInfo.clear (info : ItemInfo F) : ItemInfo F := { info with sQuantity := 0 }

/-- An output, but for the quantities. -/
def NewOrderOutput.clear (output : NewOrderOutput F) : NewOrderOutput F :=
  { output with items := output.items.map .clear }

/-- The quantities of an output. -/
def NewOrderOutput.quantities (output : NewOrderOutput F) : List ℤ := output.items.map ItemInfo.sQuantity

/-- An output is what it is but for the quantities, and the quantities. -/
theorem NewOrderOutput.ext_clear {output output' : NewOrderOutput F} (h : output.clear = output'.clear)
    (hq : output.quantities = output'.quantities) : output = output' := by
  have hinfos : ∀ {infos infos' : List (ItemInfo F)}, infos.map ItemInfo.clear = infos'.map ItemInfo.clear →
      infos.map ItemInfo.sQuantity = infos'.map ItemInfo.sQuantity → infos = infos' := fun {infos infos'} hc hs => by
    have hinj : Function.Injective fun info : ItemInfo F => (info.clear, info.sQuantity) := fun info info' heq => by
      cases info
      cases info'
      simp only [ItemInfo.clear, Prod.mk.injEq, ItemInfo.mk.injEq, true_and] at heq ⊢
      exact ⟨heq.2, heq.1⟩
    refine hinj.list_map ?_
    rw [← List.zip_map', hc, hs, List.zip_map']
  cases output
  cases output'
  simp only [clear, quantities, NewOrderOutput.mk.injEq] at h hq ⊢
  exact ⟨h.1, h.2.1, h.2.2.1, h.2.2.2.1, h.2.2.2.2.1, hinfos h.2.2.2.2.2.1 hq, h.2.2.2.2.2.2⟩

namespace Db

variable [Money F] {db db' : Db F} {w d c : ℤ} {items : List NewOrderItem} {now : List Char}

/-- A line, reported in two buffers. -/
theorem addOrderLine_buffer (w d o : ℤ) {e e' : (NewOrderItem × Item F × ItemInfo F) × ℕ}
    (h : (e.1.1, e.1.2.1, e.2) = (e'.1.1, e'.1.2.1, e'.2)) :
    Sim (fun s t => s = t) (addOrderLine w d o e) (addOrderLine w d o e') fun info info' s t =>
      info.clear = info'.clear ∧ s = t := by
  obtain ⟨⟨item, tuple, info⟩, n⟩ := e
  obtain ⟨⟨item', tuple', info'⟩, n'⟩ := e'
  simp only [Prod.mk.injEq] at h
  obtain ⟨rfl, rfl, rfl⟩ := h
  rw [addOrderLine, addOrderLine]
  refine (Sim.refl _).bind_eq fun _ => (Sim.refl _).bind_eq fun s => (Sim.refl _).bind_eq fun olDistInfo => ?_
  exact (Sim.refl _).bind_eq fun _ => Sim.pure fun _ _ heq => ⟨rfl, heq⟩

/-- **The home part, reported in two buffers**: it is the same but for the quantities. -/
theorem newOrderHomeUncombined_buffer (w d c : ℤ) (items : List NewOrderItem) (now : List Char)
    (output output' : NewOrderOutput F) :
    Sim (fun s t => s = t) (newOrderHomeUncombined w d c items now output)
      (newOrderHomeUncombined w d c items now output') fun a b s t =>
        (a.1 = b.1 ∧ (a.1.isSome → a.2.clear = b.2.clear)) ∧ s = t := by
  rw [newOrderHomeUncombined, newOrderHomeUncombined]
  refine (Sim.refl _).bind_eq fun _ => (Sim.refl _).bind_eq fun dist => (Sim.refl _).bind_eq fun _ => ?_
  refine (Sim.refl _).bind_eq fun existing => (Sim.refl _).bind_eq fun _ => (Sim.refl _).bind_eq fun _ => ?_
  refine (Sim.refl _).bind_eq fun cust => (Sim.refl _).bind_eq fun tuples => ?_
  cases tuples with
  | none => exact Sim.pure fun _ _ heq => ⟨⟨rfl, fun h => absurd h (by simp)⟩, heq⟩
  | some tuples =>
    refine (Sim.refl _).bind_eq fun _ => (Sim.refl _).bind_eq fun _ => (Sim.refl _).bind_eq fun ware => ?_
    refine (Sim.refl _).bind_eq fun oEntryD => (Sim.refl _).bind_eq fun _ => (Sim.refl _).bind_eq fun _ => ?_
    refine (Sim.refl _).bind_eq fun _ => ?_
    have hentries : List.Forall₂ (fun e e' : (NewOrderItem × Item F × ItemInfo F) × ℕ =>
        (e.1.1, e.1.2.1, e.2) = (e'.1.1, e'.1.2.1, e'.2)) (items.zip (tuples.zip (outputItems items output))).zipIdx
        (items.zip (tuples.zip (outputItems items output'))).zipIdx := by
      have hlen := length_outputItems items output
      have hlen' := length_outputItems items output'
      refine List.forall₂_iff_get.mpr ⟨by simp [hlen, hlen'], fun i h h' => by simp⟩
    refine (Sim.mapM_of_forall₂ (fun _ _ h => addOrderLine_buffer w d dist.dNextOId h) hentries).bind
      fun infos infos' => Sim.of_fact fun hinfos => ?_
    refine (Sim.refl _).bind_eq fun quantities => ?_
    cases quantities with
    | none => exact Sim.failure
    | some q =>
      have hclear : infos.map ItemInfo.clear = infos'.map ItemInfo.clear := by
        rw [← List.forall₂_eq_eq_eq, List.forall₂_map_left_iff, List.forall₂_map_right_iff]
        exact hinfos
      have htotal : ∀ l : List (ItemInfo F), l.foldl (fun total info => total + info.olAmount) 0 =
          (l.map ItemInfo.clear).foldl (fun total info => total + info.olAmount) (0 : F) := fun l => by
        rw [List.foldl_map]
        rfl
      refine Sim.pure fun _ _ heq => ⟨⟨rfl, fun _ => ?_⟩, heq⟩
      simp only [NewOrderOutput.clear]
      rw [htotal infos, htotal infos', hclear]

end Db

/-- The quantities of the elements that stay are zero. -/
def NewOrderOutput.Zeroed (output : NewOrderOutput F) (n : ℕ) : Prop :=
  ∀ info ∈ output.items.take n, info.sQuantity = 0

section Zeroed

variable [Money F] {items : List NewOrderItem} {output : NewOrderOutput F}

theorem Db.outputItems_new (items : List NewOrderItem) :
    Db.outputItems items (.new : NewOrderOutput F) = List.replicate items.length ItemInfo.new := by
  rw [Db.outputItems, NewOrderOutput.new, List.take_nil, List.nil_append, List.length_nil, Nat.sub_zero]

theorem NewOrderOutput.Zeroed.quantities (h : output.Zeroed items.length) :
    (Db.outputItems items output).map ItemInfo.sQuantity =
      (Db.outputItems items (.new : NewOrderOutput F)).map ItemInfo.sQuantity := by
  rw [Db.outputItems_new, List.map_replicate, List.eq_replicate_iff, List.length_map, Db.length_outputItems]
  refine ⟨rfl, fun q hq => ?_⟩
  obtain ⟨info, hinfo, rfl⟩ := List.mem_map.mp hq
  rcases List.mem_append.mp hinfo with hinfo | hinfo
  · exact h info hinfo
  · rw [(List.mem_replicate.mp hinfo).2]

end Zeroed

/-! ### Quantities that are not zero -/

/-- A quantity is not zero where another one is. -/
def Stale (qs qs' : List ℤ) : Prop := ∃ (i : ℕ) (q : ℤ), qs[i]? = some q ∧ q ≠ 0 ∧ qs'[i]? = some 0

theorem Stale.ne {qs qs' : List ℤ} (h : Stale qs qs') : qs ≠ qs' := by
  rintro rfl
  obtain ⟨i, q, hq, hne, h₀⟩ := h
  exact hne (Option.some.inj (hq.symm.trans h₀))

theorem stale_of_not_zeroed [Money F] {items : List NewOrderItem} {output : NewOrderOutput F}
    (h : ¬output.Zeroed items.length) : Stale ((Db.outputItems items output).map ItemInfo.sQuantity)
      ((Db.outputItems items (.new : NewOrderOutput F)).map ItemInfo.sQuantity) := by
  simp only [NewOrderOutput.Zeroed, not_forall] at h
  obtain ⟨info, hinfo, hne⟩ := h
  obtain ⟨i, hi⟩ := List.mem_iff_getElem?.mp hinfo
  have hlt := (List.getElem?_eq_some_iff.mp hi).1
  rw [List.length_take] at hlt
  refine ⟨i, info.sQuantity, ?_, hne, ?_⟩
  · rw [Db.outputItems, List.getElem?_map, List.getElem?_append_left (by rw [List.length_take]; omega), hi]
    rfl
  · rw [Db.outputItems_new, List.map_replicate, List.getElem?_replicate, if_pos (by omega)]
    rfl

/-- What is combined at one place. -/
theorem newOrderCombine_at {qs : List ℤ} {output out : NewOrderOutput F} (h : newOrderCombine qs output = some out)
    {i : ℕ} {info : ItemInfo F} (hi : output.items[i]? = some info) :
    ∃ q info', qs[i]? = some q ∧ out.items[i]? = some info' ∧ combineInfo (q, info) = some info' := by
  rw [newOrderCombine_eq] at h
  split at h
  · next hlen =>
    obtain ⟨infos, hinfos, rfl⟩ := Option.map_eq_some_iff.mp h
    have hall := forall₂_of_mapM hinfos
    obtain ⟨hlt, rfl⟩ := List.getElem?_eq_some_iff.mp hi
    have hlt' := hall.length_eq
    rw [List.length_zip] at hlt'
    have hone := hall.get (i := i) (by rw [List.length_zip]; omega) (by omega)
    simp only [List.get_eq_getElem, List.getElem_zip] at hone
    exact ⟨_, _, List.getElem?_eq_getElem (by omega), List.getElem?_eq_getElem (show i < infos.length by omega), hone⟩
  · exact absurd h (by simp)

/-- **A quantity that was not zero** stays, or an assertion fails. -/
theorem newOrderCombine_stale {qs : List ℤ} {output output' out out' : NewOrderOutput F}
    (h : newOrderCombine qs output = some out) (h' : newOrderCombine qs output' = some out')
    (hs : Stale output.quantities output'.quantities) : Stale out.quantities out'.quantities := by
  obtain ⟨i, n, hn, hne, h₀⟩ := hs
  rw [NewOrderOutput.quantities, List.getElem?_map] at hn h₀
  obtain ⟨info, hinfo, rfl⟩ := Option.map_eq_some_iff.mp hn
  obtain ⟨info', hinfo', hzero⟩ := Option.map_eq_some_iff.mp h₀
  obtain ⟨q, x, hq, hx, hcombine⟩ := newOrderCombine_at h hinfo
  obtain ⟨q', x', hq', hx', hcombine'⟩ := newOrderCombine_at h' hinfo'
  obtain rfl := Option.some.inj (hq.symm.trans hq')
  -- nothing can have been filled in
  have hinvalid : q = invalidQuantity := by
    by_contra hvalid
    rw [combineInfo, if_pos hvalid, if_neg hne] at hcombine
    exact absurd hcombine (by simp)
  rw [combineInfo, if_neg (not_not.mpr hinvalid)] at hcombine hcombine'
  obtain rfl := Option.some.inj hcombine
  obtain rfl := Option.some.inj hcombine'
  refine ⟨i, info.sQuantity, ?_, hne, ?_⟩
  · rw [NewOrderOutput.quantities, List.getElem?_map, hx]
    rfl
  · rw [NewOrderOutput.quantities, List.getElem?_map, hx', ← hzero]
    rfl

namespace Db

variable {db db₁ db₂ : Db F} {w d c : ℤ} {items : List NewOrderItem} {now : List Char}
  {output output' out out' : NewOrderOutput F}

theorem newOrderRemotes_stale {remotes : List ℤ} (h : newOrderRemotes w items remotes output db = some (out, db₁))
    (h' : newOrderRemotes w items remotes output' db = some (out', db₂))
    (hs : Stale output.quantities output'.quantities) : Stale out.quantities out'.quantities := by
  induction remotes generalizing output output' db with
  | nil =>
    obtain ⟨rfl, rfl⟩ := Prod.mk.inj (Option.some.inj h)
    obtain ⟨rfl, rfl⟩ := Prod.mk.inj (Option.some.inj h')
    exact hs
  | cons remote remotes ih =>
    rw [newOrderRemotes, List.foldlM_cons] at h h'
    obtain ⟨o₁, db₃, hone, h⟩ := bind_eq_some h
    obtain ⟨o₂, db₄, hone', h'⟩ := bind_eq_some h'
    obtain ⟨qs, db₅, hremote, hone⟩ := bind_eq_some hone
    obtain ⟨qs', db₆, hremote', hone'⟩ := bind_eq_some hone'
    obtain ⟨rfl, rfl⟩ := Prod.mk.inj (Option.some.inj (hremote.symm.trans hremote'))
    cases qs with
    | none => exact absurd hone (by simp [failure, StateT.failure])
    | some q =>
      obtain ⟨hcombine, rfl⟩ := lift_eq_some hone
      obtain ⟨hcombine', rfl⟩ := lift_eq_some hone'
      exact ih h h' (newOrderCombine_stale hcombine hcombine' hs)

variable [Money F]

/-- The quantities before they are combined are those that were there. -/
theorem newOrderHomeUncombined_quantities (hk : db.Keyed) {q : List ℤ}
    (h : newOrderHomeUncombined w d c items now output db = some ((some q, out), db₁)) :
    out.quantities = (outputItems items output).map ItemInfo.sQuantity := by
  rcases newOrderHomeUncombined_eq_some hk h with ⟨hnone, -⟩ | ⟨p, q', -, -, hold, hinfos, -⟩
  · exact absurd hnone (by simp)
  · rw [← hold, NewOrderOutput.quantities, List.map_map, ← List.forall₂_eq_eq_eq, List.forall₂_map_left_iff,
      List.forall₂_map_right_iff]
    refine hinfos.forall₂.flip.imp ?_
    rintro info e ⟨s, -, rfl⟩
    rfl

/-- What follows the home part. -/
def newOrderAfter (h : HashOrder) (w : ℤ) (items : List NewOrderItem) :
    Option (List ℤ) × NewOrderOutput F → Dx F (Bool × NewOrderOutput F)
  | (none, output) => return (false, output)
  | (some quantities, output) => do
    let output ← newOrderCombine quantities output
    let output ← newOrderRemotes w items (h.iter _ (newOrderRemoteWarehouses w items)) output
    return (true, output)

theorem newOrder_eq_after (h : HashOrder) : newOrder h w d c items now output =
    newOrderHomeUncombined w d c items now output >>= newOrderAfter h w items := by
  rw [newOrder, newOrderHome, bind_assoc]
  refine congrArg (_ >>= ·) (funext fun r => ?_)
  obtain ⟨qs, out⟩ := r
  cases qs with
  | none => rfl
  | some q =>
    rw [newOrderAfter]
    dsimp only
    rw [bind_assoc]
    rfl

/-- **A committed order** reports a quantity that was there. -/
theorem newOrder_stale (hk : db.Keyed) {o : HashOrder}
    (h : newOrder o w d c items now output db = some ((true, out), db₁))
    (h' : newOrder o w d c items now output' db = some ((true, out'), db₂))
    (hs : Stale ((outputItems items output).map ItemInfo.sQuantity)
      ((outputItems items output').map ItemInfo.sQuantity)) : Stale out.quantities out'.quantities := by
  rw [newOrder_eq_after] at h h'
  obtain ⟨⟨qs, o₁⟩, db₃, hhome, h⟩ := bind_eq_some h
  obtain ⟨⟨qs', o₂⟩, db₄, hhome', h'⟩ := bind_eq_some h'
  have hsame := newOrderHomeUncombined_buffer w d c items now output output' db db rfl
  rw [hhome, hhome'] at hsame
  cases hsame with
  | some hsame =>
    obtain ⟨⟨rfl, -⟩, rfl⟩ := hsame
    cases qs with
    | none => exact absurd (congrArg (fun r => r.1.1) (Option.some.inj h)) (by simp)
    | some q =>
      rw [← newOrderHomeUncombined_quantities hk hhome, ← newOrderHomeUncombined_quantities hk hhome'] at hs
      obtain ⟨o₃, db₅, hlift, h⟩ := bind_eq_some h
      obtain ⟨o₄, db₆, hlift', h'⟩ := bind_eq_some h'
      obtain ⟨hcombine, rfl⟩ := lift_eq_some hlift
      obtain ⟨hcombine', rfl⟩ := lift_eq_some hlift'
      obtain ⟨o₅, db₇, hremotes, h⟩ := bind_eq_some h
      obtain ⟨o₆, db₈, hremotes', h'⟩ := bind_eq_some h'
      obtain ⟨heq, rfl⟩ := Prod.mk.inj (Option.some.inj h)
      obtain ⟨heq', rfl⟩ := Prod.mk.inj (Option.some.inj h')
      obtain rfl := (Prod.mk.inj heq).2
      obtain rfl := (Prod.mk.inj heq').2
      exact newOrderRemotes_stale hremotes hremotes' (newOrderCombine_stale hcombine hcombine' hs)

/-- Two runs of an order that end alike: they fail together, or both refuse, or both report the same. -/
def SameEnd : Option ((Bool × NewOrderOutput F) × Db F) → Option ((Bool × NewOrderOutput F) × Db F) → Prop :=
  Option.Rel fun r r' => r.1.1 = r'.1.1 ∧ (r.1.1 = true → r.1.2 = r'.1.2) ∧ r.2 = r'.2

/-- **Buffers with the same quantities** make no difference. -/
theorem newOrder_sameEnd (hk : db.Keyed) (o : HashOrder) (hq : db.Placeable w d c items now →
      (outputItems items output).map ItemInfo.sQuantity = (outputItems items output').map ItemInfo.sQuantity) :
    SameEnd (newOrder o w d c items now output db) (newOrder o w d c items now output' db) := by
  rw [newOrder_eq_after, newOrder_eq_after, bind_apply, bind_apply]
  have hsame := newOrderHomeUncombined_buffer w d c items now output output' db db rfl
  cases hhome : newOrderHomeUncombined w d c items now output db with
  | none =>
    rw [hhome] at hsame
    generalize newOrderHomeUncombined w d c items now output' db = r at hsame ⊢
    cases hsame
    exact Option.Rel.none
  | some r =>
    rw [hhome] at hsame
    cases hhome' : newOrderHomeUncombined w d c items now output' db with
    | none =>
      rw [hhome'] at hsame
      nomatch hsame
    | some r' =>
      rw [hhome'] at hsame
      obtain ⟨⟨qs, out⟩, db₁⟩ := r
      obtain ⟨⟨qs', out'⟩, db₂⟩ := r'
      cases hsame with
      | some hsame =>
        obtain ⟨⟨rfl, hclear⟩, rfl⟩ := hsame
        cases qs with
        | none => exact Option.Rel.some ⟨rfl, fun h => absurd h (by simp), rfl⟩
        | some q =>
          have hq := hq (placeable_of_uncombined hk hhome)
          rw [← newOrderHomeUncombined_quantities hk hhome, ← newOrderHomeUncombined_quantities hk hhome'] at hq
          obtain rfl := NewOrderOutput.ext_clear (hclear rfl) hq
          show SameEnd (newOrderAfter o w items (some q, out) db₁) (newOrderAfter o w items (some q, out) db₁)
          generalize newOrderAfter o w items (some q, out) db₁ = r
          cases r with
          | none => exact Option.Rel.none
          | some r => exact Option.Rel.some ⟨rfl, fun _ => rfl, rfl⟩

/-- The decision is made in the home part. -/
theorem newOrder_result (o : HashOrder) {q : List ℤ} {o₁ : NewOrderOutput F} {r : Bool × NewOrderOutput F}
    (hhome : newOrderHomeUncombined w d c items now output db = some ((some q, o₁), db₁))
    (h : newOrder o w d c items now output db = some (r, db₂)) : r.1 = true := by
  rw [newOrder_eq_after, bind_apply, hhome, Option.bind_some] at h
  obtain ⟨o₂, db₃, -, h⟩ := bind_eq_some h
  obtain ⟨o₃, db₄, -, h⟩ := bind_eq_some h
  rw [← (Prod.mk.inj (Option.some.inj h)).1]

/-- **An order is reported as in a new object** exactly if it cannot be placed, or the quantities that stay are
zero. -/
theorem newOrder_sameEnd_iff (hk : db.Keyed) (o : HashOrder) :
    SameEnd (newOrder o w d c items now output db) (newOrder o w d c items now .new db) ↔
      (db.Placeable w d c items now → output.Zeroed items.length) := by
  constructor
  · rintro hsame ⟨hnow, p, hp⟩
    by_contra hnot
    obtain ⟨q, o₁, db₁, hhome⟩ := newOrderHomeUncombined_isSome hk hp hnow .new
    obtain ⟨⟨⟨result, out⟩, db₂⟩, hnew⟩ := Option.isSome_iff_exists.mp
      (newOrder_isSome hk (fun _ h => absurd h List.not_mem_nil) hhome o)
    obtain rfl : result = true := newOrder_result o hhome hnew
    rw [hnew] at hsame
    generalize hrun : newOrder o w d c items now output db = r at hsame
    cases hsame with
    | @some r _ hr =>
      obtain ⟨⟨result, out'⟩, db₃⟩ := r
      obtain ⟨rfl, hout, -⟩ := hr
      have hout : out' = out := hout rfl
      subst hout
      exact (newOrder_stale hk hrun hnew (stale_of_not_zeroed hnot)).ne rfl
  · intro hzero
    exact newOrder_sameEnd hk o fun hp => (hzero hp).quantities

/-- **The home part** reports no quantities of other warehouses, if there are none. -/
theorem newOrderHome_zero (hk : db.Keyed) (hzero : db.Placeable w d c items now → output.Zeroed items.length)
    (h : newOrderHome w d c items now output db = some ((true, out), db₁)) :
    List.Forall₂ (fun (item : NewOrderItem) info => item.olSupplyWId ≠ w → info.sQuantity = 0) items out.items := by
  rw [newOrderHome] at h
  obtain ⟨⟨qs, o₁⟩, db₂, hhome, h⟩ := bind_eq_some h
  cases qs with
  | none => exact absurd (congrArg (fun r => r.1.1) (Option.some.inj h)) (by simp)
  | some q =>
    obtain ⟨o₂, db₃, hlift, h⟩ := bind_eq_some h
    obtain ⟨hcombine, rfl⟩ := lift_eq_some hlift
    obtain ⟨heq, rfl⟩ := Prod.mk.inj (Option.some.inj h)
    obtain rfl := (Prod.mk.inj heq).2
    have hquantities := newOrderHomeUncombined_quantities hk hhome
    rw [(hzero (placeable_of_uncombined hk hhome)).quantities, outputItems_new, List.map_replicate] at hquantities
    have hlen : o₁.items.length = items.length := by
      have := congrArg List.length hquantities
      simpa [NewOrderOutput.quantities] using this
    have hold : List.Forall₂ (fun (_ : NewOrderItem) (info : ItemInfo F) => info.sQuantity = 0) items o₁.items := by
      refine List.forall₂_iff_zip.mpr ⟨hlen.symm, fun {item info} hmem => ?_⟩
      have hin : info.sQuantity ∈ o₁.quantities := List.mem_map_of_mem (List.of_mem_zip hmem).2
      rw [hquantities] at hin
      exact (List.mem_replicate.mp hin).2
    rcases newOrderHomeUncombined_eq_some hk hhome with ⟨hnone, -⟩ | ⟨p, q', hq', -, -, -, -, hremote, -⟩
    · exact absurd hnone (by simp)
    · obtain rfl := Option.some.inj hq'
      refine forall₂_newOrderCombine hcombine hold (newOrderRemote_skips hremote q rfl) ?_ fun _ _ h _ _ => h
      exact fun item info q' _ hskip hvalid hne => absurd (hskip hne) hvalid

end Db

/-! ### Calls -/

section Calls

variable [Money F] {t : Tables F}

/-- **Two runs end alike**: they fail together, or both refuse, or both report the same. -/
def SameOutcome : Option (Reply F × Tables F) → Option (Reply F × Tables F) → Prop :=
  Option.Rel fun r r' => r.1.committed = r'.1.committed ∧ (r.1.committed = true → r.1 = r'.1) ∧ r.2.db = r'.2.db

/-- A call of `newOrder`, on the database. -/
theorem newOrder_commit (ht : t.Sound) (o : HashOrder) (w d c : ℤ) (items : List NewOrderItem) (now : List Char)
    (output : NewOrderOutput F) (free : Option HashOrder) :
    Option.Rel (fun r r' => r.1 = .newOrder r'.1.1 r'.1.2 ∧ r.2.db = r'.2)
      ((Txn.newOrder o w d c items now output).reply.commit free t)
      (Db.newOrder o w d c items now output t.db) := by
  have hrel := ((newOrder_refines o w d c items now output).map fun r => Reply.newOrder r.1 r.2).commit
    (Txn.reply_journaled (.newOrder o w d c items now output)) ht free
  rw [bind_apply] at hrel
  generalize Db.newOrder o w d c items now output t.db = r' at hrel ⊢
  generalize hcommit : Tx.commit free _ t = r at hrel
  have hcommit : (Txn.newOrder o w d c items now output).reply.commit free t = r := hcommit
  rw [hcommit]
  cases r' with
  | none =>
    cases hrel
    exact Option.Rel.none
  | some r' =>
    cases hrel with
    | some hr => exact Option.Rel.some ⟨hr.1, hr.2.2⟩

omit [Money F] in
theorem sameOutcome_iff {a a' : Option (Reply F × Tables F)} {b b' : Option ((Bool × NewOrderOutput F) × Db F)}
    (h : Option.Rel (fun r r' => r.1 = .newOrder r'.1.1 r'.1.2 ∧ r.2.db = r'.2) a b)
    (h' : Option.Rel (fun r r' => r.1 = .newOrder r'.1.1 r'.1.2 ∧ r.2.db = r'.2) a' b') :
    SameOutcome a a' ↔ Db.SameEnd b b' := by
  cases h with
  | none =>
    cases h' with
    | none => exact ⟨fun _ => Option.Rel.none, fun _ => Option.Rel.none⟩
    | some => exact ⟨fun h => (nomatch h), fun h => (nomatch h)⟩
  | @some r s hr =>
    cases h' with
    | none => exact ⟨fun h => (nomatch h), fun h => (nomatch h)⟩
    | @some r' s' hr' =>
      obtain ⟨reply, t₁⟩ := r
      obtain ⟨reply', t₂⟩ := r'
      obtain ⟨⟨b, out⟩, db₁⟩ := s
      obtain ⟨⟨b', out'⟩, db₂⟩ := s'
      dsimp only at hr hr'
      obtain ⟨rfl, rfl⟩ := hr
      obtain ⟨rfl, rfl⟩ := hr'
      constructor
      · intro h
        cases h with
        | some h =>
          exact Option.Rel.some ⟨h.1, fun hb => (Reply.newOrder.inj (h.2.1 hb)).2, h.2.2⟩
      · intro h
        cases h with
        | some h =>
          have hresult : b = b' := h.1
          exact Option.Rel.some ⟨h.1, fun hb => by rw [hresult, show out = out' from h.2.1 hb], h.2.2⟩

/-- A call of `newOrderHome`, on the database. -/
theorem newOrderHome_commit (ht : t.Sound) {w d c : ℤ} {items : List NewOrderItem} {now : List Char}
    {output out : NewOrderOutput F} {free : Option HashOrder} {result : Bool} {t' : Tables F}
    (h : (Txn.newOrderHome w d c items now output).reply.commit free t = some (.newOrder result out, t')) :
    Db.newOrderHome w d c items now output t.db = some ((result, out), t'.db) := by
  obtain ⟨-, y, hon, hy⟩ := Txn.commit_onDb ht h
  cases hon with
  | newOrderHome =>
    obtain ⟨⟨result', out'⟩, db₁, hrun, hret⟩ := bind_eq_some hy
    obtain ⟨heq, rfl⟩ := Prod.mk.inj (Option.some.inj hret)
    obtain ⟨rfl, rfl⟩ := Reply.newOrder.inj heq
    exact hrun

/-- **What an object holds makes no difference**: an order that can be placed is, it ends as with a new object, and
the home part reports no quantities of other warehouses. -/
structure BufferFree (t : Tables F) (o : HashOrder) (w d c : ℤ) (items : List NewOrderItem) (now : List Char)
    (output : NewOrderOutput F) (free : Option HashOrder) : Prop where
  ends : t.db.Placeable w d c items now → ((Txn.newOrder o w d c items now output).reply.commit free t).isSome
  same : SameOutcome ((Txn.newOrder o w d c items now output).reply.commit free t)
    ((Txn.newOrder o w d c items now .new).reply.commit free t)
  home (out : NewOrderOutput F) (t' : Tables F) :
    (Txn.newOrderHome w d c items now output).reply.commit free t = some (.newOrder true out, t') →
      List.Forall₂ (fun (item : NewOrderItem) info => item.olSupplyWId ≠ w → info.sQuantity = 0) items out.items

/-- The order ends as with a new object exactly if the quantities of the elements that stay in its object are zero, or
it cannot be placed. -/
theorem newOrder_sameOutcome_iff (ht : t.Sound) (o : HashOrder) (w d c : ℤ) (items : List NewOrderItem)
    (now : List Char) (output : NewOrderOutput F) (free : Option HashOrder) :
    SameOutcome ((Txn.newOrder o w d c items now output).reply.commit free t)
        ((Txn.newOrder o w d c items now .new).reply.commit free t) ↔
      (t.db.Placeable w d c items now → output.Zeroed items.length) := by
  have hcommit := fun output => newOrder_commit ht o w d c items now output free
  exact (sameOutcome_iff (hcommit output) (hcommit .new)).trans (Db.newOrder_sameEnd_iff ht.keyed o)

/-- **What an object holds makes no difference** exactly if the order cannot be placed, or the quantities of the
elements that stay in it are zero. -/
theorem bufferFree_iff (ht : t.Sound) (o : HashOrder) (w d c : ℤ) (items : List NewOrderItem) (now : List Char)
    (output : NewOrderOutput F) (free : Option HashOrder) :
    BufferFree t o w d c items now output free ↔
      (t.db.Placeable w d c items now → output.Zeroed items.length) := by
  have hcommit := fun output => newOrder_commit ht o w d c items now output free
  have hsame := newOrder_sameOutcome_iff ht o w d c items now output free
  refine ⟨fun h => hsame.mp h.same, fun hzero => ⟨fun hp => ?_, hsame.mpr hzero, fun out t' h => ?_⟩⟩
  · obtain ⟨hnow, p, hvalid⟩ := hp
    obtain ⟨q, o₁, db₁, hhome⟩ := Db.newOrderHomeUncombined_isSome ht.keyed hvalid hnow .new
    have hnew := Db.newOrder_isSome ht.keyed (fun _ h => absurd h List.not_mem_nil) hhome o
    rwa [← rel_isSome (hcommit .new), ← rel_isSome (hsame.mpr hzero)] at hnew
  · exact Db.newOrderHome_zero ht.keyed hzero (newOrderHome_commit ht h)

/-- **An object in which an order was reported** cannot be used for another one: all its quantities are in range. -/
theorem not_bufferFree_of_reused (ht : t.Sound) (hst : t.db.Stocked) {o o' : HashOrder} {w d c w' d' c' : ℤ}
    {items items' : List NewOrderItem} (hitems : ∀ item ∈ items, item.InRange) {now now' : List Char}
    {output out : NewOrderOutput F} {free free' : Option HashOrder} {t₁ t' : Tables F}
    (h : (Txn.newOrder o w d c items now output).reply.commit free t = some (.newOrder true out, t₁))
    (hne : items ≠ []) (ht' : t'.Sound) (hp : t'.db.Placeable w' d' c' items' now') (hne' : items' ≠ []) :
    ¬BufferFree t' o' w' d' c' items' now' out free' := by
  intro hfree
  have hzero := (newOrder_sameOutcome_iff ht' o' w' d' c' items' now' out free').mp hfree.same
  have hfilled : List.Forall₂ (fun _ info => QuantityInRange info.sQuantity) items out.items :=
    (Txn.commit_orders ht (x := .newOrder o w d c items now output) trivial h rfl).2.2 hst hitems
  obtain ⟨item, rest, rfl⟩ := List.exists_cons_of_ne_nil hne
  obtain ⟨item', rest', rfl⟩ := List.exists_cons_of_ne_nil hne'
  obtain ⟨info, infos, hq, -, hout⟩ := List.forall₂_cons_left_iff.mp hfilled
  have hquantity : info.sQuantity = 0 := hzero hp info (by rw [hout]; exact List.mem_cons_self)
  rw [hquantity] at hq
  exact absurd hq.1 (by decide)

end Calls

/-! ### A buffer that is used twice -/

/-- An order with a line from each warehouse, reported in some object. -/
def orderInto (output : NewOrderOutput ℚ) : Txn ℚ :=
  .newOrder .asInserted 1 1 1 suppliedItems (List.replicate 14 '0') output

/-- In a new object. -/
theorem bufferFree_new : BufferFree suppliedTables .asInserted 1 1 1 suppliedItems (List.replicate 14 '0') .new none :=
  (bufferFree_iff suppliedTables_sound _ _ _ _ _ _ _ _).mpr fun _ _ h => absurd h (by simp [NewOrderOutput.new])

/-- In the object in which the order before it was reported. -/
theorem bufferFree_not_reused : ¬∀ (t : Tables ℚ) (o : HashOrder) (w d c : ℤ) (items : List NewOrderItem)
    (now : List Char) (output : NewOrderOutput ℚ) (free : Option HashOrder), t.Sound →
      BufferFree t o w d c items now output free := by
  intro h
  have hrun : ((orderInto .new).reply.commit none suppliedTables).any (fun r => r.1.reported.any fun out =>
      ((orderInto out).reply.commit none r.2).isNone && ((orderInto .new).reply.commit none r.2).isSome) =
        true := by decide +kernel
  obtain ⟨⟨r, t⟩, hone, hagain⟩ := (Option.any_eq_true _ _).mp hrun
  have ht := (Txn.commit_onDb suppliedTables_sound hone).1
  obtain ⟨out, -, hagain⟩ := (Option.any_eq_true _ _).mp hagain
  rw [Bool.and_eq_true] at hagain
  have hsame := rel_isSome (h t .asInserted 1 1 1 suppliedItems (List.replicate 14 '0') out none ht).same
  have hnew : ((orderInto .new).reply.commit none t).isSome := hagain.2
  have hnone : ((orderInto out).reply.commit none t).isNone := hagain.1
  have hsame : ((orderInto out).reply.commit none t).isSome = ((orderInto .new).reply.commit none t).isSome := hsame
  rw [hnew] at hsame
  rw [Option.isNone_iff_eq_none.mp hnone] at hsame
  exact absurd hsame (by simp)

end TpccBench
