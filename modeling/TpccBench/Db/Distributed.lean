import TpccBench.Db.StockLevels
import TpccBench.Db.SplitPayment
import TpccBench.Lib.Sites

/-!
# A new order in parts

The warehouses are assigned to instances, and each instance has the items and a replica of
the text columns of every stock row (`TpccBench.Db.Split`). The home part of a new order runs
at the instance of its warehouse, and a part for each other warehouse at the instance of that
one (`TpccBench.newOrderParts`).

A part reads and writes the rows of its own warehouse, and of the other stock rows it reads the
text only, which no part writes. So the parts do together what they do one after the other on a
database that has all rows. And parts of different warehouses may come in any order: each
fills in the quantities of its own lines.
-/

namespace TpccBench

open Prog

variable {F : Type} {ι : Type} [DecidableEq ι]

/-! ### Databases that are split -/

/-- The warehouse of a row with these ids. -/
def RowId.warehouse : (k : Kind) → RowId k → ℤ
  | .warehouse, w => w
  | .district, (w, _) => w
  | .stock, (w, _) => w
  | .customer, (w, _, _) => w
  | .order, (w, _, _) => w
  | .orderLine, (w, _, _, _) => w
  | .newOrder, (w, _, _) => w
  | .history, _ => 0

/-- The columns of a stock row that are replicated. -/
def Stock.text (s : Stock) : (Fin 10 → CString 24) × CString 50 := (s.sDist, s.sData)

namespace Db

omit [DecidableEq ι] in
/-- **A database is split**: every site has the items and the text of the stock, and the rows
of a warehouse are at its site. -/
structure Split (site : ℤ → ι) (c : ι → Db F) (db : Db F) : Prop where
  keyed : db.Keyed
  items (i : ι) : (c i).items = db.items
  row {k : Kind} (id : RowId k) : (c (site (RowId.warehouse k id))).row k id = db.row k id
  text (i : ι) (id : ℤ × ℤ) : ((c i).row .stock id).map Stock.text = (db.row .stock id).map Stock.text
  history (w : ℤ) : (c (site w)).history.filter (fun h => h.hWId = w) =
    db.history.filter fun h => h.hWId = w

/-- At one site the database is this one. -/
def Beside (site : ℤ → ι) (c : ι → Db F) (i : ι) (s db : Db F) : Prop :=
  Split site (Function.update c i s) db

namespace Beside

variable {site : ℤ → ι} {c : ι → Db F} {w : ℤ} {i : ι} {s db : Db F} {k : Kind} {id : RowId k}

theorem items (h : Beside site c i s db) : s.items = db.items := by
  rw [← Split.items h i, Function.update_self]

theorem row (h : Beside site c (site w) s db) (hid : RowId.warehouse k id = w) : s.row k id = db.row k id := by
  rw [← Split.row h id, hid, Function.update_self]

theorem text (h : Beside site c i s db) (id : ℤ × ℤ) :
    (s.row .stock id).map Stock.text = (db.row .stock id).map Stock.text := by
  rw [← Split.text h i id, Function.update_self]

/-- **A row of the warehouse is written**, and no text is. -/
theorem setRow (h : Beside site c (site w) s db) (hid : RowId.warehouse k id = w) {r : Option (Row F k)}
    (hkeyed : (db.setRow k id r).Keyed)
    (htext : ∀ id', ((db.setRow k id r).row .stock id').map Stock.text = (db.row .stock id').map Stock.text) :
    Beside site c (site w) (s.setRow k id r) (db.setRow k id r) := by
  refine ⟨hkeyed, fun i => ?_, fun {k'} id' => ?_, fun i id' => ?_, fun w' => ?_⟩
  · have hi := Split.items h i
    by_cases heq : i = site w
    · subst heq
      rw [Function.update_self] at hi ⊢
      exact hi
    · rw [Function.update_of_ne heq] at hi ⊢
      exact hi
  · have hrow := Split.row h id'
    by_cases heq : site (RowId.warehouse k' id') = site w
    · rw [heq, Function.update_self] at hrow ⊢
      by_cases hk : k' = k
      · subst hk
        rw [setRow_row, setRow_row, hrow]
      · rw [setRow_row_of_ne _ hk, setRow_row_of_ne _ hk, hrow]
    · rw [Function.update_of_ne heq] at hrow ⊢
      by_cases hk : k' = k
      · subst hk
        rw [setRow_row, if_neg, hrow]
        rintro rfl
        exact heq (by rw [hid])
      · rw [setRow_row_of_ne _ hk, hrow]
  · rw [htext id']
    have hi := Split.text h i id'
    by_cases heq : i = site w
    · subst heq
      rw [Function.update_self] at hi ⊢
      by_cases hk : k = .stock
      · subst hk
        rw [← hi, setRow_row]
        split
        · next hsame =>
          subst hsame
          rw [hi, ← htext id', setRow_row_same]
        · rfl
      · rw [setRow_row_of_ne _ (Ne.symm hk), hi]
    · rw [Function.update_of_ne heq] at hi ⊢
      exact hi
  · have hhist := Split.history h w'
    by_cases heq : site w' = site w
    · rw [heq, Function.update_self] at hhist ⊢
      exact hhist
    · rw [Function.update_of_ne heq] at hhist ⊢
      exact hhist

/-- Other rows have no text. -/
theorem text_setRow_of_ne (hk : k ≠ .stock) {r : Option (Row F k)} (id' : ℤ × ℤ) :
    ((db.setRow k id r).row .stock id').map Stock.text = (db.row .stock id').map Stock.text := by
  rw [setRow_row_of_ne _ (Ne.symm hk)]

end Beside

/-- **What one site does** to its database, as a simulation of all of them. -/
theorem Split.onSite {α β : Type} {site : ℤ → ι} {i : ι} {x : Dx F α} {y : Dx F β} {J : α → β → Prop}
    (h : ∀ c, Sim (Beside site c i) x y fun a b s db => J a b ∧ Beside site c i s db) :
    Sim (Split site) (Prog.onSite i x) y fun a b c db => J a b ∧ Split site c db := by
  intro c db hc
  have hrel := h c (c i) db (by rwa [Beside, Function.update_eq_self])
  rw [onSite_apply]
  generalize x (c i) = r at hrel
  generalize y db = r' at hrel
  cases hrel with
  | none => exact Option.Rel.none
  | some hr => exact Option.Rel.some hr

/-! ### The parts at their sites -/

section Parts

variable {site : ℤ → ι} {c : ι → Db F}

section Reads

variable {α : Type} {P R' : Db F → Db F → Prop} {R : α → α → Db F → Db F → Prop} {w : ℤ} {k : Kind} {id : RowId k}

theorem find_beside {f g : Dx F α} (h : Sim P f g R) :
    Sim P (find k id >>= fun _ => f) (find k id >>= fun _ => g) R :=
  (Sim.assert fun _ _ _ => Iff.rfl).bind fun _ _ => h.pre fun _ _ hP => hP.2.2

/-- A row of the warehouse is read. -/
theorem get_beside (hP : ∀ s db, P s db → Beside site c (site w) s db) (hid : RowId.warehouse k id = w)
    {f g : Row F k → Dx F α} (h : ∀ r, Sim (fun s db => db.row k id = some r ∧ P s db) (f r) (g r) R) :
    Sim P (get k id >>= f) (get k id >>= g) R := by
  intro s db hs
  rw [bind_apply, bind_apply, get, get, (hP s db hs).row hid]
  cases hrow : db.row k id with
  | none => exact Option.Rel.none
  | some r => exact h r s db ⟨hrow, hs⟩

theorem peek_beside (hP : ∀ s db, P s db → Beside site c (site w) s db) (hid : RowId.warehouse k id = w)
    {f g : Option (Row F k) → Dx F α} (h : ∀ r, Sim P (f r) (g r) R) :
    Sim P (peek k id >>= f) (peek k id >>= g) R := by
  intro s db hs
  rw [bind_apply, bind_apply, peek, peek, (hP s db hs).row hid]
  exact h _ s db hs

theorem findAndValidateItems_beside {i : ι} (hP : ∀ s db, P s db → Beside site c i s db)
    {items : List NewOrderItem} {f g : Option (List (Item F)) → Dx F α} (h : ∀ r, Sim P (f r) (g r) R) :
    Sim P (findAndValidateItems items >>= f) (findAndValidateItems items >>= g) R :=
  (findAndValidateItems_sim (fun s db hs => (hP s db hs).items) items).bind_eq h

end Reads

/-- A row that was read is written back. -/
theorem set_beside {w : ℤ} {k : Kind} (hk : k ≠ .stock) {id : RowId k} (hid : RowId.warehouse k id = w)
    {r₀ r : Row F k} (hr : rowId k r = rowId k r₀) :
    Sim (fun s db => db.row k id = some r₀ ∧ Beside site c (site w) s db) (set k r) (set k r) fun a b s db =>
      a = b ∧ Beside site c (site w) s db := by
  rintro s db ⟨hrow, h⟩
  have hid' : rowId k r = id := hr.trans (h.keyed.ids hrow)
  rw [set, set, hid']
  refine Option.Rel.some ⟨rfl, h.setRow hid ?_ (Beside.text_setRow_of_ne hk)⟩
  rw [← hid']
  exact h.keyed.setRow (hid' ▸ h.keyed.keys hrow)

theorem insert_beside {w : ℤ} {k : Kind} (hk : k ≠ .stock) (hhist : k ≠ .history) {r : Row F k}
    (hid : RowId.warehouse k (rowId k r) = w) :
    Sim (Beside site c (site w)) (insert k r) (insert k r) fun a b s db =>
      a = b ∧ Beside site c (site w) s db := by
  intro s db h
  rw [insert, insert, h.row hid]
  split
  · next hc =>
    refine Option.Rel.some ⟨rfl, h.setRow hid ?_ (Beside.text_setRow_of_ne hk)⟩
    exact h.keyed.setRow (primary_isSome hhist hc.1)
  · exact Option.Rel.none

theorem updateStock_beside (home r : ℤ) (item : NewOrderItem) :
    Sim (Beside site c (site r)) (updateStock home r item) (updateStock home r item) fun a b s db =>
      a = b ∧ Beside site c (site r) s db := by
  rw [updateStock]
  refine Sim.ite Iff.rfl (fun _ => Sim.pure fun _ _ h => ⟨rfl, h⟩) fun hr => ?_
  have hid : RowId.warehouse .stock (item.olSupplyWId, item.iId) = r := not_not.mp hr
  refine find_beside (get_beside (fun _ _ h => h) hid fun st => ?_)
  refine Sim.bind_eq (Q := fun _ => Beside site c (site r)) ?_ fun _ => Sim.pure fun _ _ h => ⟨rfl, h⟩
  rintro s db ⟨hrow, h⟩
  have hid' : rowId (F := F) .stock (st.ordered home item) = (item.olSupplyWId, item.iId) :=
    (h.keyed.ids hrow : rowId (F := F) .stock st = _)
  rw [set, set, hid']
  refine Option.Rel.some ⟨rfl, h.setRow hid ?_ fun id' => ?_⟩
  · rw [← hid']
    exact h.keyed.setRow (hid' ▸ h.keyed.keys hrow)
  · -- taking from the stock leaves the text
    rw [setRow_row]
    split
    · next heq => rw [heq, hrow]; rfl
    · rfl

/-- **A remote part** at its site. -/
theorem newOrderRemote_beside (home r : ℤ) (items : List NewOrderItem) :
    Sim (Beside site c (site r)) (newOrderRemote home r items) (newOrderRemote home r items)
      fun a b s db => a = b ∧ Beside site c (site r) s db := by
  rw [newOrderRemote]
  refine findAndValidateItems_beside (fun _ _ h => h) fun tuples => ?_
  cases tuples with
  | none => exact Sim.pure fun _ _ h => ⟨rfl, h⟩
  | some tuples =>
    refine Sim.bind_eq ?_ fun qs => Sim.pure fun _ _ h => ⟨rfl, h⟩
    exact Sim.mapM (I := fun _ => Beside site c (site r)) (fun item _ => updateStock_beside home r item) items

variable [Money F]

/-- An order line is added at home, with the text of a replica. -/
theorem addOrderLine_beside (w d o : ℤ) (e : (NewOrderItem × Item F × ItemInfo F) × ℕ) :
    Sim (Beside site c (site w)) (addOrderLine w d o e) (addOrderLine w d o e) fun a b s db =>
      a = b ∧ Beside site c (site w) s db := by
  rw [addOrderLine]
  refine find_beside ?_
  refine Sim.bind (Q := fun st st' s db => st.text = st'.text ∧ Beside site c (site w) s db) ?_
    fun st st' => Sim.of_fact fun htext => ?_
  · intro s db h
    have htext := h.text (e.1.1.olSupplyWId, e.1.1.iId)
    rw [get, get]
    cases hs : s.row .stock (e.1.1.olSupplyWId, e.1.1.iId) with
    | none =>
      rw [hs] at htext
      rw [Option.map_eq_none_iff.mp htext.symm]
      exact Option.Rel.none
    | some st =>
      rw [hs] at htext
      obtain ⟨st', hst', heq⟩ := Option.map_eq_some_iff.mp htext.symm
      rw [hst']
      exact Option.Rel.some ⟨heq.symm, h⟩
  · have hdist : st.distInfo d = st'.distInfo d := by
      obtain ⟨hsDist, hsData⟩ := Prod.mk.inj htext
      simp only [Stock.distInfo, hsDist, hsData]
    have hinfo : lineInfo st e.1 = lineInfo st' e.1 := by
      rw [lineInfo, lineInfo, (Prod.mk.inj htext).2]
    rw [hdist, hinfo]
    refine (Sim.lift _).bind_eq fun olDistInfo => Sim.of_fact fun _ => ?_
    refine Sim.bind_eq (Q := fun _ => Beside site c (site w)) ?_ fun _ => Sim.pure fun _ _ h => ⟨rfl, h⟩
    exact insert_beside (k := .orderLine) (by simp) (by simp) rfl

/-- **The home part** at its site. -/
theorem newOrderHome_beside (w d cId : ℤ) (items : List NewOrderItem) (now : List Char)
    (output : NewOrderOutput F) :
    Sim (Beside site c (site w)) (newOrderHome w d cId items now output)
      (newOrderHome w d cId items now output) fun a b s db => a = b ∧ Beside site c (site w) s db := by
  rw [newOrderHome]
  refine Sim.bind_eq (Q := fun _ => Beside site c (site w)) ?_ fun r => ?_
  · rw [newOrderHomeUncombined]
    refine find_beside (get_beside (w := w) (fun _ _ h => h) rfl fun dist => ?_)
    refine find_beside (peek_beside (w := w) (fun _ _ h => h.2) rfl fun existing => ?_)
    refine (Sim.assert fun _ _ _ => Iff.rfl).bind_eq fun _ => Sim.of_fact fun _ => ?_
    refine find_beside (get_beside (w := w) (fun _ _ h => h.2) rfl fun cust => ?_)
    refine findAndValidateItems_beside (fun _ _ h => h.2.2) fun tuples => ?_
    cases tuples with
    | none => exact Sim.pure fun _ _ h => ⟨rfl, h.2.2⟩
    | some tuples =>
      refine Sim.bind_eq (Q := fun _ => Beside site c (site w)) ?_ fun _ => ?_
      · have hset : Sim (fun s db => db.row .district (w, d) = some dist ∧ Beside site c (site w) s db)
            (set .district dist.ordered) (set .district dist.ordered) fun a b s db =>
              a = b ∧ Beside site c (site w) s db := set_beside (k := .district) (by simp) rfl rfl
        exact hset.pre fun _ _ h => h.2
      refine find_beside (get_beside (w := w) (fun _ _ h => h) rfl fun ware => ?_)
      refine (Sim.lift _).bind_eq fun oEntryD => Sim.of_fact fun _ => ?_
      refine (Sim.assert fun _ _ _ => Iff.rfl).bind_eq fun _ => Sim.of_fact fun _ => ?_
      refine Sim.bind_eq (Q := fun _ => Beside site c (site w)) ?_ fun _ => ?_
      · exact (insert_beside (k := .order) (by simp) (by simp) rfl).pre fun _ _ h => h.2
      refine (insert_beside (w := w) (k := .newOrder) (by simp) (by simp) rfl).bind_eq fun _ => ?_
      refine (Sim.mapM (I := fun _ => Beside site c (site w))
        (fun e _ => addOrderLine_beside w d dist.dNextOId e) _).bind_eq fun infos => ?_
      refine (newOrderRemote_beside w w items).bind_eq fun quantities => ?_
      cases quantities with
      | none => exact Sim.failure
      | some quantities => exact Sim.pure fun _ _ h => ⟨rfl, h⟩
  · obtain ⟨quantities, out⟩ := r
    cases quantities with
    | none => exact Sim.pure fun _ _ h => ⟨rfl, h⟩
    | some quantities =>
      refine (Sim.lift _).bind_eq fun combined => Sim.of_fact fun _ => ?_
      exact Sim.pure fun _ _ h => ⟨rfl, h⟩

end Parts

end Db

/-! ### Quantities are combined in any order -/

/-- No quantity is reported of the lines of other warehouses. -/
def Skips (remote : ℤ) (item : NewOrderItem) (q : ℤ) : Prop :=
  item.olSupplyWId ≠ remote → q = invalidQuantity

/-- What `newOrderCombine` does to one element. -/
def combineInfo (e : ℤ × ItemInfo F) : Option (ItemInfo F) :=
  if e.1 ≠ invalidQuantity then
    if e.2.sQuantity = 0 then some { e.2 with sQuantity := e.1 } else none
  else some e.2

theorem newOrderCombine_eq (qs : List ℤ) (output : NewOrderOutput F) : newOrderCombine qs output =
    if qs.length = output.items.length then
      ((qs.zip output.items).mapM combineInfo).map fun items => { output with items }
    else none := by
  rw [newOrderCombine]
  split
  · next h =>
    rw [guard, if_pos h, Option.map_eq_bind]
    rfl
  · next h =>
    rw [guard, if_neg h]
    rfl

/-- One of two parts has no quantity of a line. -/
theorem combineInfo_comm {r r' : ℤ} (hr : r ≠ r') {item : NewOrderItem} {q q' : ℤ} (hq : Skips r item q)
    (hq' : Skips r' item q') (info : ItemInfo F) :
    ((combineInfo (q, info)).bind fun info => combineInfo (q', info)) =
      (combineInfo (q', info)).bind fun info => combineInfo (q, info) := by
  have hskip : ∀ info : ItemInfo F, combineInfo (invalidQuantity, info) = some info :=
    fun info => if_neg (not_not.mpr rfl)
  by_cases hw : item.olSupplyWId = r
  · obtain rfl : q' = invalidQuantity := hq' (hw ▸ hr)
    simp only [hskip, Option.bind_some, Option.bind_fun_some]
  · obtain rfl : q = invalidQuantity := hq hw
    simp only [hskip, Option.bind_some, Option.bind_fun_some]

theorem combineInfos_comm {r r' : ℤ} (hr : r ≠ r') {items : List NewOrderItem} {qs qs' : List ℤ}
    (hqs : List.Forall₂ (Skips r) items qs) (hqs' : List.Forall₂ (Skips r') items qs')
    (infos : List (ItemInfo F)) :
    (((qs.zip infos).mapM combineInfo).bind fun infos => (qs'.zip infos).mapM combineInfo) =
      ((qs'.zip infos).mapM combineInfo).bind fun infos => (qs.zip infos).mapM combineInfo := by
  induction hqs generalizing qs' infos with
  | nil =>
    cases hqs'
    rfl
  | @cons item q items qs hq hqs ih =>
    cases hqs' with
    | @cons _ q' _ qs' hq' hqs' =>
      cases infos with
      | nil => rfl
      | cons info infos =>
        -- the first element, and the others
        have hsplit : ∀ (q q' : ℤ) (qs qs' : List ℤ),
            ((((q :: qs).zip (info :: infos)).mapM combineInfo).bind fun infos =>
              ((q' :: qs').zip infos).mapM combineInfo) =
            ((combineInfo (q, info)).bind fun info => combineInfo (q', info)).bind fun info =>
              (((qs.zip infos).mapM combineInfo).bind fun infos => (qs'.zip infos).mapM combineInfo).map
                (info :: ·) := by
          intro q q' qs qs'
          simp only [List.zip_cons_cons, List.mapM_cons]
          cases combineInfo (q, info) with
          | none => rfl
          | some x =>
            cases (qs.zip infos).mapM combineInfo with
            | none =>
              cases hx : combineInfo (q', x) with
              | none => simp [hx]
              | some y => simp [hx]
            | some xs => simp [List.mapM_cons, Option.map_eq_bind]
        rw [hsplit, hsplit, combineInfo_comm hr hq hq', ih hqs']

/-- **Quantities of different warehouses** may be combined in any order. -/
theorem newOrderCombine_comm {r r' : ℤ} (hr : r ≠ r') {items : List NewOrderItem} {qs qs' : List ℤ}
    (hqs : List.Forall₂ (Skips r) items qs) (hqs' : List.Forall₂ (Skips r') items qs')
    (output : NewOrderOutput F) :
    ((newOrderCombine qs output).bind fun output => newOrderCombine qs' output) =
      (newOrderCombine qs' output).bind fun output => newOrderCombine qs output := by
  have hlen : qs'.length = qs.length := hqs'.length_eq.symm.trans hqs.length_eq
  by_cases hout : qs.length = output.items.length
  · have hcomm := combineInfos_comm hr hqs hqs' output.items
    have hone : ∀ qs qs' : List ℤ, qs.length = output.items.length → qs'.length = output.items.length →
        ((newOrderCombine qs output).bind fun output => newOrderCombine qs' output) =
          (((qs.zip output.items).mapM combineInfo).bind fun infos =>
            (qs'.zip infos).mapM combineInfo).map fun items => { output with items } := by
      intro qs qs' h h'
      rw [newOrderCombine_eq, if_pos h]
      cases hinfos : (qs.zip output.items).mapM combineInfo with
      | none => rfl
      | some infos =>
        have hlen : infos.length = output.items.length := by
          have hzip := (forall₂_of_mapM hinfos).length_eq
          rw [List.length_zip, h] at hzip
          omega
        rw [Option.map_some, Option.bind_some, newOrderCombine_eq, if_pos (h'.trans hlen.symm),
          Option.bind_some]
    rw [hone _ _ hout (hlen.trans hout), hone _ _ (hlen.trans hout) hout, hcomm]
  · rw [newOrderCombine_eq, newOrderCombine_eq, if_neg hout, if_neg (hlen ▸ hout)]
    rfl

/-! ### The order of the remote warehouses -/

/-- What a part has answered is combined. -/
def combinePart (output : NewOrderOutput F) (part : Option (List ℤ)) : Option (NewOrderOutput F) :=
  part.bind fun qs => newOrderCombine qs output

namespace Db

variable {db db' : Db F} {w : ℤ} {items : List NewOrderItem}

/-- The parts may all run before their answers are combined. -/
theorem newOrderRemotes_eq (w : ℤ) (items : List NewOrderItem) (remotes : List ℤ) (output : NewOrderOutput F) :
    newOrderRemotes w items remotes output =
      remotes.mapM (fun r => newOrderRemote w r items) >>= fun parts =>
        liftM (parts.foldlM combinePart output) := by
  rw [mapM_bind_foldlM, newOrderRemotes]
  refine congrArg (fun step => remotes.foldlM step output) (funext fun out => funext fun r => ?_)
  refine congrArg (newOrderRemote w r items >>= ·) (funext fun part => ?_)
  cases part with
  | none => rfl
  | some qs => rfl

theorem newOrderRemote_skips {r : ℤ} {part : Option (List ℤ)}
    (h : newOrderRemote w r items db = some (part, db')) :
    ∀ qs, part = some qs → List.Forall₂ (Skips r) items qs := by
  rintro qs rfl
  rw [newOrderRemote] at h
  obtain ⟨tuples, db₁, -, h⟩ := bind_eq_some h
  cases tuples with
  | none => exact absurd (congrArg Prod.fst (Option.some.inj h)) (by simp)
  | some tuples =>
    obtain ⟨q, db₂, hloop, h⟩ := bind_eq_some h
    obtain ⟨heq, -⟩ := Prod.mk.inj (Option.some.inj h)
    obtain rfl := Option.some.inj heq
    have hall := Triple.mapM (f := updateStock (F := F) w r) (J := Skips r) (I := fun _ _ => True)
      (fun item l db₃ _ q' db₄ hrun => ?_) items
    · exact (hall db₁ trivial q db₂ hloop).1
    · refine ⟨fun hw => ?_, trivial⟩
      rw [updateStock, if_pos hw] at hrun
      exact (Prod.mk.inj (Option.some.inj hrun)).1.symm

/-- The database at every site. -/
theorem Keyed.split (hk : db.Keyed) : Split (id : ℤ → ℤ) (fun _ => db) db :=
  ⟨hk, fun _ => rfl, fun _ => rfl, fun _ _ => rfl, fun _ => rfl⟩

/-- **The remote parts** may come in any order. -/
theorem newOrderRemotes_perm (hk : db.Keyed) {remotes remotes' : List ℤ} (h : remotes.Perm remotes')
    (output : NewOrderOutput F) :
    newOrderRemotes w items remotes output db = newOrderRemotes w items remotes' output db := by
  -- each part at a site of its own
  have hsim : ∀ remotes : List ℤ, Sim (Split (id : ℤ → ℤ))
      (remotes.mapM (fun r => onSite r (newOrderRemote w r items)) >>= fun parts =>
        liftM (parts.foldlM combinePart output)) (newOrderRemotes w items remotes output)
      fun a b c db => a = b ∧ Split id c db := by
    intro remotes
    rw [newOrderRemotes_eq]
    refine Sim.bind_eq (Q := fun _ => Split id) ?_ fun parts =>
      (Sim.lift _).post fun _ _ _ _ h => ⟨h.1, h.2.2⟩
    have hpart : ∀ r : ℤ, Sim (Split (F := F) (id : ℤ → ℤ)) (onSite r (newOrderRemote w r items))
        (newOrderRemote w r items) fun a b c db => a = b ∧ Split id c db :=
      fun r => Split.onSite fun c => newOrderRemote_beside w r items
    exact Sim.mapM (I := fun _ => Split id) (fun r _ => hpart r) remotes
  have hrel := hsim remotes _ db hk.split
  have hrel' := hsim remotes' _ db hk.split
  rw [mapM_onSite_perm (J := fun r part => ∀ qs, part = some qs → List.Forall₂ (Skips r) items qs) ?_ ?_ h]
    at hrel
  · generalize hrun : newOrderRemotes w items remotes output db = res at hrel ⊢
    generalize hrun' : newOrderRemotes w items remotes' output db = res' at hrel' ⊢
    generalize (_ >>= _ : Prog (ℤ → Db F) _) _ = cres at hrel hrel'
    cases hrel with
    | none =>
      cases hrel' with
      | none => rfl
    | @some r s hs =>
      cases hrel' with
      | @some _ s' hs' =>
        obtain ⟨out, db₁⟩ := s
        obtain ⟨out', db₂⟩ := s'
        obtain ⟨rfl, hc⟩ := hs
        obtain ⟨rfl, hc'⟩ := hs'
        have hdb : db₁ = db₂ := by
          refine Db.ext ((hc.items 0).symm.trans (hc'.items 0)) (funext fun k => funext fun id' => ?_) ?_
          · exact (hc.row id').symm.trans (hc'.row id')
          · rw [newOrderRemotes_eq_some hk hrun, newOrderRemotes_eq_some hk hrun', takeStock_history,
              takeStock_history]
        rw [hdb]
  · exact fun r db₁ res hres => newOrderRemote_skips (hres.trans (by rw [Prod.mk.eta]))
  · intro r r' part part' hr hpart hpart' out
    cases part with
    | none => simp [combinePart]
    | some qs =>
      cases part' with
      | none => simp [combinePart]
      | some qs' => exact newOrderCombine_comm hr (hpart qs rfl) (hpart' qs' rfl) out

end Db

/-! ### The parts of a new order -/

/-- **A new order in parts**: the home part, the remote parts in some order, and
`newOrderCombine` for each of them. It is committed when every part answers true. -/
def newOrderParts {S : Type} (home : Prog S (Bool × NewOrderOutput F))
    (remote : ℤ → Prog S (Option (List ℤ))) (remotes : List ℤ) : Prog S (Bool × NewOrderOutput F) := do
  let (result, output) ← home
  let parts ← remotes.mapM remote
  match result, parts.mapM id with
  | true, some quantities =>
    let combined : Option (NewOrderOutput F) := quantities.foldlM (fun output qs => newOrderCombine qs output) output
    return (true, ← combined)
  | _, _ => return (false, output)

/-- **Parts that are simulated** part by part. -/
theorem newOrderParts_sim {S T : Type} {P : S → T → Prop} {home : Prog S (Bool × NewOrderOutput F)}
    {home' : Prog T (Bool × NewOrderOutput F)} {remote : ℤ → Prog S (Option (List ℤ))}
    {remote' : ℤ → Prog T (Option (List ℤ))} (hhome : Sim P home home' fun a b s t => a = b ∧ P s t)
    (hremote : ∀ r, Sim P (remote r) (remote' r) fun a b s t => a = b ∧ P s t) (remotes : List ℤ) :
    Sim P (newOrderParts home remote remotes) (newOrderParts home' remote' remotes)
      fun a b s t => a = b ∧ P s t := by
  rw [newOrderParts, newOrderParts]
  refine hhome.bind_eq (Q := fun _ => P) fun r => ?_
  refine (Sim.mapM (I := fun _ => P) (fun r _ => hremote r) remotes).bind_eq fun parts => ?_
  obtain ⟨result, output⟩ := r
  dsimp only
  split
  · refine (Sim.lift _).bind_eq fun out => Sim.of_fact fun _ => ?_
    exact Sim.pure fun _ _ h => ⟨rfl, h⟩
  · exact Sim.pure fun _ _ h => ⟨rfl, h⟩

namespace Db

variable [Money F] {db db' : Db F} {w d c : ℤ} {items : List NewOrderItem} {now : List Char}
  {output out : NewOrderOutput F}

/-- `newOrder`, with the remote warehouses in some order. -/
def newOrderOver (remotes : List ℤ) (warehouseId districtId customerId : ℤ) (items : List NewOrderItem)
    (now : List Char) (output : NewOrderOutput F) : Dx F (Bool × NewOrderOutput F) := do
  let (result, output) ← newOrderHome warehouseId districtId customerId items now output
  if !result then return (false, output)
  else do
    let output ← newOrderRemotes warehouseId items remotes output
    return (true, output)

theorem newOrder_eq_over (h : HashOrder) : newOrder h w d c items now output =
    newOrderOver (h.iter _ (newOrderRemoteWarehouses w items)) w d c items now output := rfl

omit [Money F] in
/-- Whether the items are valid depends on the items table only. -/
theorem findAndValidateItems_congr {tuples : Option (List (Item F))} (hitems : db.items = db'.items)
    (h : findAndValidateItems items db = some (tuples, db)) :
    findAndValidateItems items db' = some (tuples, db') := by
  have hrel := findAndValidateItems_sim (P := fun db db' : Db F => db.items = db'.items)
    (fun _ _ h => h) items db db' hitems
  rw [h] at hrel
  generalize hrun : findAndValidateItems items db' = r at hrel
  cases hrel with
  | @some _ r hr =>
    obtain ⟨tuples', db₁⟩ := r
    obtain ⟨rfl, -⟩ := hr
    rw [(findAndValidateItems_eq_some hrun).1]

omit [Money F] in
/-- A part that has processed its lines has found the items valid. -/
theorem newOrderRemote_validates {r : ℤ} {qs : List ℤ}
    (h : newOrderRemote w r items db = some (some qs, db')) :
    ∃ tuples, findAndValidateItems items db = some (some tuples, db) := by
  rw [newOrderRemote] at h
  obtain ⟨tuples, db₁, hfind, h⟩ := bind_eq_some h
  obtain ⟨rfl, -⟩ := findAndValidateItems_eq_some hfind
  cases tuples with
  | none => exact absurd (congrArg Prod.fst (Option.some.inj h)) (by simp)
  | some tuples => exact ⟨tuples, hfind⟩

/-- **The home part** answers true when the items are valid. -/
theorem newOrderHome_validates (hk : db.Keyed) {result : Bool}
    (h : newOrderHome w d c items now output db = some ((result, out), db')) :
    ∃ tuples, findAndValidateItems items db = some (tuples, db) ∧ result = tuples.isSome ∧
      db'.items = db.items := by
  rw [newOrderHome] at h
  obtain ⟨⟨qs, out₁⟩, db₁, hhome, hret⟩ := bind_eq_some h
  rcases newOrderHomeUncombined_eq_some hk hhome with ⟨rfl, rfl, hnone⟩ | ⟨p, q, rfl, hp, -, -, -, hremote, rfl⟩
  · obtain ⟨heq, rfl⟩ := Prod.mk.inj (Option.some.inj hret)
    obtain rfl := (Prod.mk.inj heq).1
    exact ⟨none, hnone, rfl, rfl⟩
  · obtain ⟨combined, db₂, hlift, hret⟩ := bind_eq_some hret
    obtain ⟨-, rfl⟩ := lift_eq_some hlift
    obtain ⟨heq, rfl⟩ := Prod.mk.inj (Option.some.inj hret)
    obtain rfl := (Prod.mk.inj heq).1
    obtain ⟨tuples, hfind⟩ := newOrderRemote_validates hremote
    exact ⟨some tuples, findAndValidateItems_congr Placement.apply_items hfind, rfl,
      (takeStock_items _).trans Placement.apply_items⟩

omit [Money F] in
/-- Remote parts of an order with an item that is missing. -/
theorem mapM_newOrderRemote_none (h : findAndValidateItems items db = some (none, db)) (remotes : List ℤ) :
    remotes.mapM (fun r => newOrderRemote w r items) db = some (remotes.map fun _ => none, db) := by
  induction remotes with
  | nil => rfl
  | cons r remotes ih =>
    have hone : newOrderRemote w r items db = some (none, db) := by
      rw [newOrderRemote, bind_apply, h]
      rfl
    rw [List.mapM_cons, bind_apply, hone, Option.bind_some, bind_apply, ih]
    rfl

omit [Money F] in
/-- Remote parts of an order with valid items. -/
theorem mapM_newOrderRemote_some {tuples : List (Item F)} {parts : List (Option (List ℤ))}
    (hvalid : findAndValidateItems items db = some (some tuples, db)) {remotes : List ℤ}
    (h : remotes.mapM (fun r => newOrderRemote w r items) db = some (parts, db')) (hk : db.Keyed) :
    ∃ qs : List (List ℤ), parts = qs.map some := by
  have hall := Triple.mapM (f := fun r => newOrderRemote (F := F) w r items) (J := fun _ part => part.isSome)
    (I := fun _ db₁ => db₁.Keyed ∧ db₁.items = db.items) (fun r l db₁ hI part db₂ hrun => ?_) remotes
  · have hsome := (hall db ⟨hk, rfl⟩ parts db' h).1
    clear h hall
    induction hsome with
    | nil => exact ⟨[], rfl⟩
    | cons hpart _ ih =>
      obtain ⟨q, rfl⟩ := Option.isSome_iff_exists.mp hpart
      obtain ⟨qs, rfl⟩ := ih
      exact ⟨q :: qs, rfl⟩
  · rcases newOrderRemote_eq_some hI.1 hrun with ⟨rfl, -⟩ | ⟨q, rfl, rfl⟩
    · -- the items are still valid
      rw [newOrderRemote, bind_apply, findAndValidateItems_congr hI.2.symm hvalid, Option.bind_some] at hrun
      obtain ⟨q, db₃, -, hret⟩ := bind_eq_some hrun
      exact absurd (congrArg Prod.fst (Option.some.inj hret)) (by simp)
    · exact ⟨rfl, hI.1.takeStock _, hI.2⟩

/-- **On one database** the parts are the new order. -/
theorem newOrderParts_eq_over (hk : db.Keyed) (remotes : List ℤ) :
    newOrderParts (newOrderHome w d c items now output) (fun r => newOrderRemote w r items) remotes db =
      newOrderOver remotes w d c items now output db := by
  rw [newOrderParts, newOrderOver, bind_apply, bind_apply]
  cases hhome : newOrderHome w d c items now output db with
  | none => rfl
  | some r =>
    obtain ⟨⟨result, out⟩, db₁⟩ := r
    obtain ⟨tuples, hvalid, rfl, hitems⟩ := newOrderHome_validates hk hhome
    rw [Option.bind_some, Option.bind_some]
    cases tuples with
    | none =>
      rcases newOrderHome_eq_some hk hhome with ⟨-, rfl⟩ | ⟨hresult, -⟩
      · dsimp only
        rw [bind_apply, mapM_newOrderRemote_none hvalid]
        rfl
      · exact absurd hresult (by simp)
    | some tuples =>
      have hk₁ : db₁.Keyed := by
        rcases newOrderHome_eq_some hk hhome with ⟨-, rfl⟩ | ⟨-, p, hp, rfl⟩
        · exact hk
        · exact (hp.keyed hk).takeStock _
      dsimp only
      rw [newOrderRemotes_eq, bind_apply]
      show _ = (_ >>= fun _ => _ : Dx F _) db₁
      rw [bind_apply, bind_apply]
      cases hparts : remotes.mapM (fun r => newOrderRemote w r items) db₁ with
      | none => rfl
      | some r =>
        obtain ⟨parts, db₂⟩ := r
        obtain ⟨qs, rfl⟩ := mapM_newOrderRemote_some (findAndValidateItems_congr hitems.symm hvalid) hparts hk₁
        rw [Option.bind_some, Option.bind_some]
        have hid : (qs.map some).mapM id = some qs := by
          rw [List.mapM_map]
          exact (List.mapM_pure (m := Option) (f := id)).trans (by rw [List.map_id]; rfl)
        have hfold : (qs.map some).foldlM combinePart out = qs.foldlM (fun output qs => newOrderCombine qs output) out := by
          rw [List.foldlM_map]
          rfl
        simp only [hid, Option.isSome_some, hfold]
        rfl

end Db

/-! ### No combination fails -/

/-- Quantities of these warehouses may have been filled in, and no others. -/
def Unfilled (ws : List ℤ) (item : NewOrderItem) (info : ItemInfo F) : Prop :=
  item.olSupplyWId ∉ ws → info.sQuantity = 0

/-- **The quantities of another warehouse** find their elements empty. -/
theorem newOrderCombine_isSome {r : ℤ} {ws : List ℤ} (hr : r ∉ ws) {items : List NewOrderItem} {qs : List ℤ}
    {output : NewOrderOutput F} (hout : List.Forall₂ (Unfilled ws) items output.items)
    (hqs : List.Forall₂ (Skips r) items qs) :
    ∃ out, newOrderCombine qs output = some out ∧ List.Forall₂ (Unfilled (r :: ws)) items out.items := by
  have hone : ∀ {item : NewOrderItem} {q : ℤ} {info : ItemInfo F}, Skips r item q → Unfilled ws item info →
      ∃ info', combineInfo (q, info) = some info' ∧ Unfilled (r :: ws) item info' := by
    intro item q info hq hinfo
    by_cases hvalid : q = invalidQuantity
    · exact ⟨info, if_neg (not_not.mpr hvalid), fun hw => hinfo fun h => hw (List.mem_cons_of_mem _ h)⟩
    · have hw : item.olSupplyWId = r := by
        by_contra hw
        exact hvalid (hq hw)
      have hzero : info.sQuantity = 0 := hinfo (hw ▸ hr)
      refine ⟨{ info with sQuantity := q }, ?_, fun h => absurd (hw ▸ List.mem_cons_self) h⟩
      rw [combineInfo, if_pos hvalid, if_pos hzero]
  have hall : ∃ infos, (qs.zip output.items).mapM combineInfo = some infos ∧
      List.Forall₂ (Unfilled (r :: ws)) items infos := by
    have hlen := hqs.length_eq
    generalize output.items = infos at hout
    clear hlen
    induction hout generalizing qs with
    | nil =>
      cases hqs
      exact ⟨[], rfl, List.Forall₂.nil⟩
    | cons hinfo hout ih =>
      cases hqs with
      | cons hq hqs =>
        obtain ⟨info', hinfo', hun⟩ := hone hq hinfo
        obtain ⟨infos, hinfos, huns⟩ := ih hqs
        refine ⟨info' :: infos, ?_, List.Forall₂.cons hun huns⟩
        rw [List.zip_cons_cons, List.mapM_cons, hinfo', hinfos]
        rfl
  obtain ⟨infos, hinfos, hun⟩ := hall
  refine ⟨{ output with items := infos }, ?_, hun⟩
  rw [newOrderCombine_eq, if_pos (hqs.length_eq.symm.trans hout.length_eq), hinfos]
  rfl

namespace Db

section Progress

variable {db : Db F} {w : ℤ} {items : List NewOrderItem}

/-- The lines have their stock rows. -/
def Stocks (db : Db F) (items : List NewOrderItem) : Prop :=
  ∀ item ∈ items, (db.row .stock (item.olSupplyWId, item.iId)).isSome

theorem Stocks.takeStock (h : db.Stocks items) (ls : List SupplyLine) : (db.takeStock ls).Stocks items :=
  fun item hitem => by rw [takeStock_stock, Option.isSome_map]; exact h item hitem

theorem updateStock_isSome (hk : db.Keyed) {r : ℤ} {item : NewOrderItem}
    (h : (db.row .stock (item.olSupplyWId, item.iId)).isSome) :
    ∃ q db', updateStock w r item db = some (q, db') := by
  obtain ⟨s, hs⟩ := Option.isSome_iff_exists.mp h
  rw [updateStock]
  split
  · exact ⟨_, _, rfl⟩
  · rw [bind_apply, find_apply hk hs, Option.bind_some, bind_apply, get_apply hs]
    exact ⟨_, _, rfl⟩

/-- **A part that finds its rows** ends. -/
theorem newOrderRemote_isSome (hk : db.Keyed) {tuples : List (Item F)}
    (hvalid : findAndValidateItems items db = some (some tuples, db)) (h : db.Stocks items) (r : ℤ) :
    ∃ qs db', newOrderRemote w r items db = some (some qs, db') := by
  have hloop : ∀ (l : List NewOrderItem) (db : Db F), db.Keyed → db.Stocks l →
      ∃ qs db', l.mapM (updateStock w r) db = some (qs, db') := by
    intro l
    induction l with
    | nil => exact fun db _ _ => ⟨[], db, rfl⟩
    | cons item l ih =>
      intro db hk hl
      obtain ⟨hitem, hl⟩ := List.forall_mem_cons.mp hl
      obtain ⟨q, db₁, hone⟩ := updateStock_isSome (w := w) (r := r) hk hitem
      obtain ⟨rfl, -⟩ := updateStock_eq_some hk hone
      have hl : db.Stocks l := hl
      obtain ⟨qs, db₂, hrest⟩ := ih _ (hk.takeStock _) (hl.takeStock _)
      refine ⟨q :: qs, db₂, ?_⟩
      rw [List.mapM_cons, bind_apply, hone, Option.bind_some, bind_apply, hrest]
      rfl
  obtain ⟨qs, db', hrun⟩ := hloop items db hk h
  refine ⟨qs, db', ?_⟩
  rw [newOrderRemote, bind_apply, hvalid, Option.bind_some]
  show (_ >>= fun _ => _ : Dx F _) db = _
  rw [bind_apply, hrun]
  rfl

/-- **The remote parts** end, and their quantities are combined. -/
theorem newOrderRemotes_isSome (hk : db.Keyed) {tuples : List (Item F)}
    (hvalid : findAndValidateItems items db = some (some tuples, db)) (h : db.Stocks items)
    {remotes ws : List ℤ} (hnd : remotes.Nodup) (hws : ∀ r ∈ remotes, r ∉ ws) {output : NewOrderOutput F}
    (hout : List.Forall₂ (Unfilled ws) items output.items) :
    ∃ out db', newOrderRemotes w items remotes output db = some (out, db') := by
  induction remotes generalizing db ws output with
  | nil => exact ⟨output, db, rfl⟩
  | cons r remotes ih =>
    obtain ⟨hr, hnd⟩ := List.nodup_cons.mp hnd
    obtain ⟨hrws, hws⟩ := List.forall_mem_cons.mp hws
    obtain ⟨qs, db₁, hone⟩ := newOrderRemote_isSome (w := w) hk hvalid h r
    obtain ⟨out₁, hcombine, hout₁⟩ := newOrderCombine_isSome hrws hout (newOrderRemote_skips hone qs rfl)
    rcases newOrderRemote_eq_some hk hone with ⟨hnone, -⟩ | ⟨q, -, rfl⟩
    · exact absurd hnone (by simp)
    · have hnew : ∀ r' ∈ remotes, r' ∉ r :: ws := by
        intro r' hr' hmem
        rcases List.mem_cons.mp hmem with rfl | hmem
        · exact hr hr'
        · exact hws r' hr' hmem
      obtain ⟨out₂, db₂, hrest⟩ := ih (hk.takeStock _) (findAndValidateItems_congr (takeStock_items _).symm hvalid)
        (h.takeStock _) hnd hnew hout₁
      refine ⟨out₂, db₂, ?_⟩
      rw [newOrderRemotes, List.foldlM_cons, bind_apply, bind_apply, hone]
      dsimp only [Option.bind_some]
      rw [hcombine]
      exact hrest

end Progress

variable [Money F] {db db' : Db F} {w d c : ℤ} {items : List NewOrderItem} {now : List Char}
  {output out : NewOrderOutput F}

/-- What is reported before the quantities are combined has the quantities that were there. -/
theorem Reported.unfilled {entries : List (NewOrderItem × Item F × ItemInfo F)} {infos : List (ItemInfo F)}
    (h : db.Reported entries infos) (hfresh : ∀ e ∈ entries, e.2.2.sQuantity = 0) :
    List.Forall₂ (Unfilled []) (entries.map Prod.fst) infos := by
  have hall : List.Forall₂ (fun e info => e ∈ entries ∧ ∃ s, db.row .stock (e.1.olSupplyWId, e.1.iId) = some s ∧
      info = lineInfo s e) entries infos :=
    (List.forall₂_and_left _ _).mpr ⟨fun _ he => he, h.forall₂⟩
  refine List.forall₂_map_left_iff.mpr (hall.imp fun e info ⟨he, s, _, hinfo⟩ => ?_)
  subst hinfo
  exact fun _ => hfresh e he

/-- The lines of an order that is placed have their stock rows. -/
theorem stocks_of_valid {p : Placement F w d c items} (hp : p.Valid db) : db.Stocks items := by
  intro item hitem
  rw [← hp.items] at hitem
  obtain ⟨e, he, rfl⟩ := List.mem_map.mp hitem
  obtain ⟨n, hn⟩ : ∃ n, (e, n) ∈ p.entries.zipIdx := by
    obtain ⟨n, hn, rfl⟩ := List.mem_iff_getElem.mp he
    exact ⟨n, List.mem_zipIdx_iff_getElem?.mpr (List.getElem?_eq_getElem hn)⟩
  obtain ⟨line, -, hline⟩ := exists_of_forall₂_right hp.lines.flip hn
  obtain ⟨s, olDistInfo, hs, -⟩ := hline.placed
  exact Option.isSome_iff_exists.mpr ⟨s, hs⟩

/-- **Once the rows of the order are in**, nothing fails any more. -/
theorem newOrder_isSome (hk : db.Keyed) (hfresh : ∀ info ∈ output.items, info.sQuantity = 0)
    {r : (Option (List ℤ) × NewOrderOutput F) × Db F}
    (h : newOrderHomeUncombined w d c items now output db = some r) (o : HashOrder) :
    (newOrder o w d c items now output db).isSome := by
  obtain ⟨⟨qs, out₁⟩, db₁⟩ := r
  rw [newOrder, bind_apply, newOrderHome, bind_apply, h, Option.bind_some]
  rcases newOrderHomeUncombined_eq_some hk h with ⟨rfl, rfl, -⟩ | ⟨p, q, rfl, hp, hold, hinfos, -, hremote, hdb⟩
  · rfl
  · -- the elements are the ones that were there, and new ones
    have hentries : ∀ e ∈ p.entries, e.2.2.sQuantity = 0 := by
      intro e he
      have hmem : e.2.2 ∈ outputItems items output := hold ▸ List.mem_map_of_mem he
      rcases List.mem_append.mp hmem with hmem | hmem
      · exact hfresh _ (List.mem_of_mem_take hmem)
      · rw [(List.mem_replicate.mp hmem).2]
        rfl
    have hun := hinfos.unfilled hentries
    rw [hp.items] at hun
    obtain ⟨out₂, hcombine, hun⟩ := newOrderCombine_isSome List.not_mem_nil hun (newOrderRemote_skips hremote q rfl)
    obtain ⟨tuples, hvalid⟩ := newOrderRemote_validates hremote
    have hstocks : db₁.Stocks items := by
      rw [hdb]
      refine Stocks.takeStock (fun item hitem => ?_) _
      rw [Placement.apply_row_of_ne (by simp)]
      exact stocks_of_valid hp item hitem
    have hk₁ : db₁.Keyed := hdb ▸ (hp.keyed hk).takeStock _
    have hitems : (p.apply db).items = db₁.items := by rw [hdb, takeStock_items]
    obtain ⟨hnd, hmem⟩ := newOrderRemoteWarehouses_spec w items
    have hperm := o.perm _ (newOrderRemoteWarehouses w items)
    obtain ⟨out₃, db₂, hrest⟩ := newOrderRemotes_isSome hk₁ (findAndValidateItems_congr hitems hvalid) hstocks
      (w := w) (hperm.nodup_iff.mpr hnd) (fun r hr hin =>
        ((hmem r).mp (hperm.mem_iff.mp hr)).1 (List.mem_singleton.mp hin)) hun
    dsimp only
    rw [bind_apply, hcombine, lift_apply, Option.map_some, Option.bind_some, pure_apply, Option.bind_some]
    show ((_ >>= fun _ => _ : Dx F _) db₁).isSome
    rw [bind_apply, hrest]
    rfl

end Db

/-! ### Instances -/

section Instances

variable [Money F] {t t' : Tables F} {c : ι → Tables F}

omit [Money F] in
/-- Committing, as a simulation. -/
theorem Refines.commit_sim {α : Type} {x : Tx F α} {y : Dx F α} (h : Refines x y) (hj : x.Journaled)
    (free : Option HashOrder) : Sim (fun t db => t.Sound ∧ t.db = db) (x.commit free) y
      fun a b t db => a = b ∧ t.Sound ∧ t.db = db := by
  rintro t db ⟨ht, rfl⟩
  exact h.commit hj ht free

theorem newOrderHome_journaled (w d cId : ℤ) (items : List NewOrderItem) (now : List Char)
    (output : NewOrderOutput F) : (Tx.newOrderHome w d cId items now output).Journaled :=
  Keeps.journaled (fun _ => newOrderHome_keeps w d cId items now output) fun _ => trivial

theorem newOrder_journaled (o : HashOrder) (w d cId : ℤ) (items : List NewOrderItem) (now : List Char)
    (output : NewOrderOutput F) : (Tx.newOrder o w d cId items now output).Journaled :=
  Keeps.journaled (fun _ => newOrder_keeps o w d cId items now output) fun _ => trivial

omit [Money F] in
theorem newOrderRemote_journaled (home remote : ℤ) (items : List NewOrderItem) :
    (Tx.newOrderRemote (F := F) home remote items).Journaled :=
  Keeps.journaled (fun _ => newOrderRemote_keeps Any.stable home remote items) fun _ => trivial

theorem newOrderHomeUncombined_journaled (w d cId : ℤ) (items : List NewOrderItem) (now : List Char)
    (output : NewOrderOutput F) : (Tx.newOrderHomeUncombined w d cId items now output).Journaled :=
  Keeps.journaled (fun _ => newOrderHomeUncombined_keeps w d cId items now output) fun _ => trivial

/-- **A distributed new order**: each part is committed at the instance of its warehouse. -/
def distributedNewOrder (site : ℤ → ι) (free : ℤ → Option HashOrder) (warehouseId districtId customerId : ℤ)
    (items : List NewOrderItem) (now : List Char) (output : NewOrderOutput F) (remotes : List ℤ) :
    Prog (ι → Tables F) (Bool × NewOrderOutput F) :=
  newOrderParts
    (onSite (site warehouseId)
      ((Tx.newOrderHome warehouseId districtId customerId items now output).commit (free warehouseId)))
    (fun r => onSite (site r) ((Tx.newOrderRemote warehouseId r items).commit (free r))) remotes

/-- **A distributed new order is the new order**: with the remote parts in any order it answers
and reports the same, and the instances have the same rows afterwards. The order in which
`newOrder` goes through its set of warehouses makes no difference, and once the order is in no
quantity is combined with another one. -/
theorem distributed_newOrder {site : ℤ → ι} (ht : t.Sound) (hc : ∀ i, (c i).Sound)
    (hsplit : Db.Split site (fun i => (c i).db) t.db) {w d cId : ℤ} {items : List NewOrderItem}
    {now : List Char} {output : NewOrderOutput F} (hfresh : ∀ info ∈ output.items, info.sQuantity = 0)
    {remotes : List ℤ} (hperm : remotes.Perm (newOrderRemoteWarehouses w items)) (o o' : HashOrder)
    (free : ℤ → Option HashOrder) (free₁ free₂ : Option HashOrder) :
    Option.Rel (fun r r' => r.1 = r'.1 ∧ (∀ i, (r.2 i).Sound) ∧ r'.2.Sound ∧
        Db.Split site (fun i => (r.2 i).db) r'.2.db)
      (distributedNewOrder site free w d cId items now output remotes c)
      ((Tx.newOrder o w d cId items now output).commit free₁ t) ∧
    Option.Rel (fun r r' => r.1 = r'.1 ∧ r.2.db = r'.2.db)
      ((Tx.newOrder o w d cId items now output).commit free₁ t)
      ((Tx.newOrder o' w d cId items now output).commit free₂ t) ∧
    (((Tx.newOrderHomeUncombined w d cId items now output).commit free₁ t).isSome →
      ((Tx.newOrder o w d cId items now output).commit free₁ t).isSome) := by
  -- on the databases
  have hdb : ∀ o : HashOrder, Db.newOrder o w d cId items now output t.db =
      Db.newOrderOver remotes w d cId items now output t.db := by
    intro o
    rw [Db.newOrder_eq_over, Db.newOrderOver, Db.newOrderOver, bind_apply, bind_apply]
    cases hhome : Db.newOrderHome w d cId items now output t.db with
    | none => rfl
    | some r =>
      obtain ⟨⟨result, out⟩, db₁⟩ := r
      have hk₁ : db₁.Keyed := by
        rcases Db.newOrderHome_eq_some ht.keyed hhome with ⟨-, rfl⟩ | ⟨-, p, hp, rfl⟩
        · exact ht.keyed
        · exact (hp.keyed ht.keyed).takeStock _
      rw [Option.bind_some, Option.bind_some]
      cases result with
      | false => rfl
      | true =>
        show (_ >>= fun _ => _ : Dx F _) db₁ = (_ >>= fun _ => _ : Dx F _) db₁
        rw [bind_apply, bind_apply, Db.newOrderRemotes_perm hk₁ ((o.perm _ _).trans hperm.symm)]
  have hone : ∀ (o : HashOrder) (free : Option HashOrder),
      Option.Rel (fun r r' => r.1 = r'.1 ∧ r.2.Sound ∧ r.2.db = r'.2)
        ((Tx.newOrder o w d cId items now output).commit free t)
        (Db.newOrderOver remotes w d cId items now output t.db) := fun o free => by
    rw [← hdb o]
    exact (newOrder_refines o w d cId items now output).commit (newOrder_journaled o w d cId items now output)
      ht free
  refine ⟨?_, ?_, fun hhome => ?_⟩
  · -- the instances, their databases, and the one database
    have hsites := newOrderParts_sim
      (Sim.onSite ((newOrderHome_refines w d cId items now output).commit_sim
        (newOrderHome_journaled w d cId items now output) (free w)) (site w))
      (fun r => Sim.onSite ((newOrderRemote_refines w r items).commit_sim
        (newOrderRemote_journaled w r items) (free r)) (site r)) remotes c (fun i => (c i).db)
      fun i => ⟨hc i, rfl⟩
    have hparts := newOrderParts_sim
      (Db.Split.onSite (J := Eq) fun _ => Db.newOrderHome_beside w d cId items now output)
      (fun r => Db.Split.onSite (J := Eq) fun _ => Db.newOrderRemote_beside w r items) remotes
      _ t.db hsplit
    rw [Db.newOrderParts_eq_over ht.keyed] at hparts
    refine rel_mono (rel_trans (rel_trans hsites hparts) (rel_symm (hone o free₁))) ?_
    rintro r r' ⟨r₂, ⟨r₁, ⟨hr, hs⟩, hr₁, hsplit'⟩, hr', hs', hdb'⟩
    refine ⟨hr.trans (hr₁.trans hr'.symm), fun i => (hs i).1, hs', ?_⟩
    rw [hdb', show (fun i => (r.2 i).db) = r₁.2 from funext fun i => (hs i).2]
    exact hsplit'
  · refine rel_mono (rel_trans (hone o free₁) (rel_symm (hone o' free₂))) ?_
    rintro r r' ⟨r₁, ⟨hr, -, hdb⟩, hr', -, hdb'⟩
    exact ⟨hr.trans hr'.symm, hdb.trans hdb'.symm⟩
  · rw [rel_isSome ((newOrderHomeUncombined_refines w d cId items now output).commit
      (newOrderHomeUncombined_journaled w d cId items now output) ht free₁)] at hhome
    obtain ⟨r, hr⟩ := Option.isSome_iff_exists.mp hhome
    rw [rel_isSome (hone o free₁), ← hdb o]
    exact Db.newOrder_isSome ht.keyed hfresh hr o

end Instances

/-- The small database, with a stock row of another warehouse. -/
def suppliedDatabase : List (Insertion ℚ) :=
  smallDatabase ++ [.stock ⟨1, 2, 50, 0, 0, 0, fun _ => .empty, .empty⟩]

theorem insertAll_suppliedDatabase : (insertAll suppliedDatabase Tables.empty).isSome := by decide

def suppliedTables : Tables ℚ := ((insertAll suppliedDatabase Tables.empty).get insertAll_suppliedDatabase).2

theorem suppliedTables_sound : suppliedTables.Sound :=
  (insertAll_onDb Tables.empty_sound (Option.some_get insertAll_suppliedDatabase).symm).1

/-- One line from home, and one from the other warehouse. -/
def suppliedItems : List NewOrderItem := [⟨1, 1, 2⟩, ⟨1, 2, 3⟩]

def suppliedOrder : Tx ℚ (Bool × NewOrderOutput ℚ) :=
  Tx.newOrder .asInserted 1 1 1 suppliedItems (List.replicate 14 '0') .new

/-- An instance for each warehouse, and the order is committed. -/
theorem distributed_newOrder_supplied :
    ∃ r r', distributedNewOrder id (fun _ => none) 1 1 1 suppliedItems (List.replicate 14 '0') .new [2]
        (fun _ : ℤ => suppliedTables) = some r ∧
      suppliedOrder.commit none suppliedTables = some r' ∧ r'.1.1 = true ∧ r.1 = r'.1 ∧
        Db.Split id (fun i => (r.2 i).db) r'.2.db := by
  have hrun : (suppliedOrder.commit none suppliedTables).map (fun r => r.1.1) = some true := by
    decide +kernel
  obtain ⟨r', hrun, hr'⟩ := Option.map_eq_some_iff.mp hrun
  have hrel : Option.Rel (fun r r' => r.1 = r'.1 ∧ (∀ i, (r.2 i).Sound) ∧ r'.2.Sound ∧
      Db.Split id (fun i => (r.2 i).db) r'.2.db)
    (distributedNewOrder id (fun _ => none) 1 1 1 suppliedItems (List.replicate 14 '0') .new [2]
      fun _ : ℤ => suppliedTables) (suppliedOrder.commit none suppliedTables) :=
    (distributed_newOrder suppliedTables_sound (fun _ => suppliedTables_sound)
      suppliedTables_sound.keyed.split (fun _ h => absurd h List.not_mem_nil) (by decide) .asInserted
      .asInserted (fun _ => none) none none).1
  rw [hrun] at hrel
  generalize hsites : distributedNewOrder id (fun _ => none) 1 1 1 suppliedItems (List.replicate 14 '0') .new
    [2] (fun _ : ℤ => suppliedTables) = r at hrel
  cases hrel with
  | @some r _ h => exact ⟨r, r', rfl, hrun, hr', h.1, h.2.2.2⟩

end TpccBench
