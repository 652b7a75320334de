import TpccBench.Db.Brand
import TpccBench.Load.Loaded

/-!
# A tenth of the rows is marked

The items, and the stock of each warehouse, are made in the order of their ids, and a tenth of them is
selected beforehand. These and no others are marked (`TpccBench.Tenth`), so a new order reports a line as a
brand exactly if its item and its stock row have been selected, whatever has run since
(`TpccBench.TPCCGenerator.original_tenth`).
-/

namespace TpccBench

open Prog

variable {F : Type}

/-- **Rows with data, of which a tenth is marked**: those that are selected. -/
structure Tenth (n : ℕ) (rows : List ℤ) (made : List (ℤ × CString 50)) : Prop where
  ids : made.map Prod.fst = idsTo n
  data (r : ℤ × CString 50) : r ∈ made → DataString (r.1 ∈ rows) r.2.chars
  count : made.countP (fun r => "ORIGINAL".toList <:+: r.2.chars) = n / 10

/-- The ids that are selected are as many as there are rows with them. -/
theorem TPCCGenerator.Selected.countP {n k : ℕ} {rows : List ℤ} (h : Selected n k rows) :
    (idsTo n).countP (· ∈ rows) = k := by
  have hperm : ((idsTo n).filter (· ∈ rows)).Perm rows := by
    rw [List.perm_ext_iff_of_nodup ((nodup_idsTo n).filter _) h.nodup]
    intro i
    rw [List.mem_filter, decide_eq_true_eq]
    exact ⟨fun hi => hi.2, fun hi => ⟨h.ids i hi, hi⟩⟩
  rw [List.countP_eq_length_filter, hperm.length_eq, h.length]

theorem TPCCGenerator.Selected.tenth {n : ℕ} {rows : List ℤ} (h : Selected n (n / 10) rows) {data : ℤ → CString 50}
    (hdata : ∀ i ∈ idsTo n, DataString (i ∈ rows) (data i).chars) :
    Tenth n rows ((idsTo n).map fun i => (i, data i)) where
  ids := by
    rw [List.map_map]
    exact List.map_id' _
  data r hr := by
    obtain ⟨i, hi, rfl⟩ := List.mem_map.mp hr
    exact hdata i hi
  count := by
    rw [List.countP_map, ← h.countP]
    refine List.countP_congr fun i hi => ?_
    simp only [Function.comp_apply, decide_eq_true_eq]
    exact (hdata i hi).original

namespace TPCCGenerator

variable {g : TPCCGenerator} {tries : ℕ} {l l' : Load F} {w : ℤ}

/-- The ids that are selected at some point of a load. -/
def Selects (g : TPCCGenerator) (tries : ℕ) (l : Load F) (rows : List ℤ) : Prop :=
  ∃ n, selectUniqueIds g.random tries (g.numItems / 10) 1 g.numItems l.drawn = some (rows, n)

/-- **Rows that are made in order**, of which some have been selected. -/
theorem makeRows {A : Type} [Inhabited A] {row : A → Insertion F} {generate : ℤ → Bool → Rx A}
    {P : ℤ → A → Prop} {data : A → CString 50}
    (hgen : ∀ i ∈ idsTo g.numItems, ∀ original, (generate i original).Yields False fun a =>
      P i a ∧ DataString (original = true) (data a).chars)
    (h : (do
      let rows ← (selectUniqueIds g.random tries (g.numItems / 10) 1 g.numItems).gen
      (idsTo g.numItems).forM fun i => do
        let a ← (generate i (i ∈ rows)).gen
        (row a).gen : Gen F Unit) l = some ((), l')) :
    ∃ rows, ∃ f : ℤ → A, g.Selects tries l rows ∧ (∀ i ∈ idsTo g.numItems, P i (f i)) ∧
      Tenth g.numItems rows ((idsTo g.numItems).map fun i => (i, data (f i))) ∧
      insertAll ((idsTo g.numItems).map fun i => row (f i)) l.tables = some ((), l'.tables) := by
  obtain ⟨_, l₁, hrows, h⟩ := bind_eq_some h
  obtain ⟨⟨rows, n⟩, hselect, heq⟩ := Option.map_eq_some_iff.mp hrows
  obtain ⟨rfl, rfl⟩ := Prod.mk.inj heq
  have hselected := (selectUniqueIds_yields (by omega) False.elim : Rx.Yields False _ _).result hselect
  have hemits : Emits False ((idsTo g.numItems).forM fun i => do
      let a ← (generate i (i ∈ rows)).gen
      (row a).gen : Gen F Unit) _ :=
    forM_row_emits row (fun i a => P i a ∧ DataString (i ∈ rows) (data a).chars) fun i hi =>
      Emits.draws (hgen i hi _) fun a ha => Emits.insertion.mono fun _ is his =>
        ⟨a, ⟨ha.1, by simpa using ha.2⟩, his⟩
  obtain ⟨is, ⟨f, hf, rfl⟩, hins⟩ := hemits.of_eq_some h
  exact ⟨rows, f, ⟨n, hselect⟩, fun i hi => (hf i hi).1, hselected.tenth fun i hi => (hf i hi).2, hins⟩

/-- **The stock of a warehouse.** -/
theorem makeStock_tenth (h : g.makeStock tries w l = some ((), l')) : ∃ rows, ∃ stock : List Stock,
    g.Selects tries l rows ∧ (∀ s ∈ stock, s.sWId = w) ∧
      Tenth g.numItems rows (stock.map fun s => (s.sIId, s.sData)) ∧
      insertAll (stock.map .stock) l.tables = some ((), l'.tables) := by
  have hgen : ∀ i ∈ idsTo g.numItems, ∀ original, (g.generateStock i w original).Yields False fun s =>
      MakesStock w i s ∧ DataString (original = true) s.sData.chars :=
    fun i hi original => g.generateStock_yields hi w original
  obtain ⟨rows, f, hselect, hids, htenth, hins⟩ := makeRows hgen h
  refine ⟨rows, (idsTo g.numItems).map f, hselect, fun s hs => ?_, ?_, ?_⟩
  · obtain ⟨i, hi, rfl⟩ := List.mem_map.mp hs
    exact (Prod.mk.inj (hids i hi).id).1
  · rw [List.map_map]
    convert htenth using 1
    exact List.map_congr_left fun i hi => Prod.ext (Prod.mk.inj (hids i hi).id).2 rfl
  · rwa [List.map_map]

variable [Money F]

/-- **The items.** -/
theorem makeItemsTable_tenth (h : g.makeItemsTable tries l = some ((), l')) : ∃ rows, ∃ items : List (Item F),
    g.Selects tries l rows ∧ Tenth g.numItems rows (items.map fun item => (item.iId, item.iData)) ∧
      insertAll (items.map .item) l.tables = some ((), l'.tables) := by
  have hgen : ∀ i ∈ idsTo g.numItems, ∀ original, (g.generateItem i original : Rx (Item F)).Yields False fun item =>
      item.iId = i ∧ DataString (original = true) item.iData.chars :=
    fun i hi original => g.generateItem_yields hi original
  obtain ⟨rows, f, hselect, hids, htenth, hins⟩ := makeRows hgen h
  refine ⟨rows, (idsTo g.numItems).map f, hselect, ?_, ?_⟩
  · rw [List.map_map]
    convert htenth using 1
    exact List.map_congr_left fun i hi => Prod.ext (hids i hi) rfl
  · rwa [List.map_map]

/-! ### Where the stock of a warehouse is made -/

omit [Money F] in
theorem idsTo_split {n : ℕ} (hw : w ∈ idsTo n) : ∃ rest, idsTo n = idsTo (w - 1).toNat ++ w :: rest := by
  have hids := mem_idsTo.mp hw
  obtain ⟨m, rfl⟩ : ∃ m, n = (w - 1).toNat + (m + 1) := ⟨n - (w - 1).toNat - 1, by omega⟩
  refine ⟨(List.range m).map fun i : ℕ => (w - 1).toNat + (i + 1) + 1, ?_⟩
  rw [idsTo, List.range_add, List.map_append, List.range_succ_eq_map]
  simp only [List.map_cons, List.map_map]
  congr 2
  push_cast
  omega

omit [Money F] in
/-- The rows of a district have keys. -/
theorem keyed_of_mem_districtRows {d : ℤ} {x : DistrictData F} {i : Insertion F} (hi : i ∈ g.districtRows w d x) :
    i.Keyed := by
  cases i with
  | warehouse ware =>
    simp only [districtRows, orderRows, List.cons_append, List.mem_cons, List.mem_append, List.mem_flatMap,
      List.mem_map, reduceCtorEq, false_or, or_false, and_false, exists_false, List.not_mem_nil] at hi
    obtain ⟨o, -, hi⟩ := hi
    split at hi <;> simp at hi
  | _ => trivial

theorem makeWarehouseWithoutStock_keyed : Emits False (g.makeWarehouseWithoutStock (F := F) tries w) fun _ is =>
    ∀ i ∈ is, i.Keyed := by
  rw [makeWarehouseWithoutStock]
  refine Emits.draws (g.generateWarehouse_yields False.elim) fun ware hware => Emits.inserts ?_
  refine (Emits.forM (nodup_idsTo _) fun dId hd => makeDistrict_emits False.elim w hd).mono ?_
  rintro - is ⟨x, -, rfl⟩
  have hid := hware.1
  refine List.forall_mem_cons.mpr ⟨fun h₀ => by omega, fun i hi => ?_⟩
  obtain ⟨d, -, hi⟩ := List.mem_flatMap.mp hi
  exact keyed_of_mem_districtRows hi

theorem makeWarehouse_keyed : Emits False (g.makeWarehouse (F := F) tries w) fun _ is => ∀ i ∈ is, i.Keyed := by
  rw [makeWarehouse]
  refine (makeStock_emits False.elim w).bind ?_
  rintro - is ⟨f, -, rfl⟩
  refine makeWarehouseWithoutStock_keyed.mono fun _ is' his' i hi => ?_
  rcases List.mem_append.mp hi with hi | hi
  · obtain ⟨j, -, rfl⟩ := List.mem_map.mp hi
    trivial
  · exact his' i hi

theorem makeWarehouses_keyed (ws : List ℤ) : Emits False (ws.forM (g.makeWarehouse (F := F) tries)) fun _ is =>
    ∀ i ∈ is, i.Keyed := by
  induction ws with
  | nil => exact Emits.pure fun i hi => absurd hi List.not_mem_nil
  | cons w ws ih =>
    show Emits False (g.makeWarehouse tries w >>= fun _ => ws.forM _) _
    exact makeWarehouse_keyed.bind fun _ is his => ih.mono fun _ is' his' =>
      List.forall_mem_append.mpr ⟨his, his'⟩

/-- What is inserted later. -/
def Later (l l' : Load F) : Prop :=
  ∃ is : List (Insertion F), (∀ i ∈ is, i.Keyed) ∧ insertAll is l.tables = some ((), l'.tables)

variable {warehouses : ℕ}

/-- **The items are made first.** -/
theorem load_items (h : g.load tries warehouses l = some ((), l')) :
    ∃ l₁, g.makeItemsTable tries l = some ((), l₁) ∧ Later l₁ l' := by
  rw [load] at h
  obtain ⟨_, l₁, hitems, h⟩ := bind_eq_some h
  exact ⟨l₁, hitems, (makeWarehouses_keyed _).of_eq_some h⟩

/-- **The stock of a warehouse is made** when the warehouses before it are loaded. -/
theorem load_stock (hw : w ∈ idsTo warehouses) (h : g.load tries warehouses l = some ((), l')) :
    ∃ l₁ l₂, g.load tries (w - 1).toNat l = some ((), l₁) ∧ g.makeStock tries w l₁ = some ((), l₂) ∧
      Later l₂ l' := by
  obtain ⟨rest, hsplit⟩ := idsTo_split hw
  rw [load, hsplit] at h
  obtain ⟨_, l₀, hitems, h⟩ := bind_eq_some h
  rw [forM_append_apply] at h
  obtain ⟨⟨_, l₁⟩, hbefore, h⟩ := Option.bind_eq_some_iff.mp h
  rw [forM_cons_apply, makeWarehouse, bind_apply, Option.bind_assoc] at h
  obtain ⟨⟨_, l₂⟩, hstock, h⟩ := Option.bind_eq_some_iff.mp h
  refine ⟨l₁, l₂, ?_, hstock, ?_⟩
  · rw [load, bind_apply, hitems, Option.bind_some]
    exact hbefore
  · have hlater : (g.makeWarehouseWithoutStock tries w >>= fun _ => rest.forM (g.makeWarehouse tries)) l₂ =
        some ((), l') := h
    have hkeyed : Emits False (g.makeWarehouseWithoutStock (F := F) tries w >>= fun _ =>
        rest.forM (g.makeWarehouse tries)) fun _ is => ∀ i ∈ is, i.Keyed :=
      makeWarehouseWithoutStock_keyed.bind fun _ is his => (makeWarehouses_keyed rest).mono fun _ is' his' =>
        List.forall_mem_append.mpr ⟨his, his'⟩
    exact hkeyed.of_eq_some hlater

/-! ### The marks of a loaded database -/

omit [Money F] in
theorem Later.adds (h : Later l l') (hl : l.tables.Sound) : ∃ is, l.tables.db.Adds is l'.tables.db := by
  obtain ⟨is, hkeyed, hins⟩ := h
  exact ⟨is, insertions_adds ((insertAll_onDb hl hins).2 hkeyed)⟩

variable {drawn : ℕ}

/-- **The items of a loaded database** are marked if they have been selected. -/
theorem items_marked (h : g.load tries warehouses ⟨Tables.empty, drawn⟩ = some ((), l')) :
    ∃ rows, g.Selects tries (⟨Tables.empty, drawn⟩ : Load F) rows ∧ ∀ i tuple, 1 ≤ i →
      l'.tables.db.items[(i - 1).toNat]? = some tuple → (isOriginal tuple.iData.chars = true ↔ i ∈ rows) := by
  obtain ⟨l₁, hitems, hlater⟩ := load_items h
  obtain ⟨rows, items, hselect, htenth, hins⟩ := makeItemsTable_tenth hitems
  obtain ⟨hs₁, hdb⟩ := insertAll_onDb Tables.empty_sound hins
  have hadds := insertions_adds (hdb fun i hi => by
    obtain ⟨item, -, rfl⟩ := List.mem_map.mp hi
    trivial)
  obtain ⟨is, hlater⟩ := hlater.adds hs₁
  -- there are no items but these
  have hlen : items.length = g.numItems := by
    have hids := congrArg List.length htenth.ids
    simpa using hids
  have hall : l'.tables.db.items = items := by
    obtain ⟨-, x, -, hx⟩ := Loads.exists_db ⟨tries, drawn, l', h, rfl⟩
    have hcount : l'.tables.db.items.length = g.numItems := by
      rw [hx, db, List.length_map, length_idsTo]
    have happend : l'.tables.db.items = items ++ is.filterMap Insertion.asItem := by
      rw [hlater.items, hadds.items]
      simp [Tables.db, Tables.empty, Insertion.asItem, List.filterMap_map, Function.comp_def]
    rw [happend, List.length_append, hlen] at hcount
    have hnil : is.filterMap Insertion.asItem = [] := List.length_eq_zero_iff.mp (by omega)
    rw [happend, hnil, List.append_nil]
  refine ⟨rows, hselect, fun i tuple hi htuple => ?_⟩
  rw [hall] at htuple
  have hid : tuple.iId = i := by
    have hget := congrArg (fun ids => ids[(i - 1).toNat]?) htenth.ids
    simp only [List.map_map, List.getElem?_map, htuple, Option.map_some, Function.comp_apply, idsTo] at hget
    obtain ⟨j, hj, heq⟩ := Option.map_eq_some_iff.mp hget.symm
    rw [List.getElem?_range (by
      have := (List.getElem?_eq_some_iff.mp htuple).1
      omega)] at hj
    have := Option.some.inj hj
    omega
  rw [isOriginal_iff, (htenth.data _ (List.mem_map.mpr ⟨tuple, List.mem_of_getElem? htuple, rfl⟩)).original, hid]

/-- **The stock rows of a loaded database** are marked if they have been selected. -/
theorem stock_marked (h : g.load tries warehouses ⟨Tables.empty, drawn⟩ = some ((), l')) {i : ℤ} {s : Stock}
    (hs : l'.tables.db.row .stock (w, i) = some s) : ∃ l₁ rows,
      g.load tries (w - 1).toNat (⟨Tables.empty, drawn⟩ : Load F) = some ((), l₁) ∧ g.Selects tries l₁ rows ∧
        (isOriginal s.sData.chars = true ↔ i ∈ rows) := by
  obtain ⟨-, x, -, hx⟩ := Loads.exists_db ⟨tries, drawn, l', h, rfl⟩
  have hrow : g.rowOf warehouses x .stock (w, i) = some s := by
    rw [hx] at hs
    exact hs
  rw [rowOf] at hrow
  split at hrow
  · next hin =>
    obtain ⟨l₁, l₂, hbefore, hstock, hlater⟩ := load_stock hin.1 h
    obtain ⟨rows, stock, hselect, hw, htenth, hins⟩ := makeStock_tenth hstock
    obtain ⟨hs₂, hdb⟩ := insertAll_onDb (Loads.exists_db ⟨tries, drawn, l₁, hbefore, rfl⟩).1 hins
    have hadds := insertions_adds (hdb fun i hi => by
      obtain ⟨s, -, rfl⟩ := List.mem_map.mp hi
      trivial)
    obtain ⟨is, hlater⟩ := hlater.adds hs₂
    -- the row that was made has stayed
    obtain ⟨made, hmade, hid⟩ := List.mem_map.mp (htenth.ids ▸ hin.2)
    obtain ⟨s', hs', rfl⟩ := List.mem_map.mp hmade
    have hrow₂ : l₂.tables.db.row .stock (w, i) = some s' := by
      rw [hadds.row (by decide)]
      exact Or.inr ⟨Prod.ext (hw s' hs') hid, List.mem_filterMap.mpr ⟨_, List.mem_map_of_mem hs', rfl⟩⟩
    have hrow' : l'.tables.db.row .stock (w, i) = some s' := (hlater.row (by decide)).mpr (Or.inl hrow₂)
    obtain rfl := Option.some.inj (hs.symm.trans hrow')
    refine ⟨l₁, rows, hbefore, hselect, ?_⟩
    rw [isOriginal_iff, (htenth.data _ hmade).original]
    exact Eq.to_iff (congrArg (· ∈ rows) hid)
  · exact absurd hrow (by simp)

/-- **A line is a brand** exactly if its item is among these, and its stock row has been selected when the stock of
its warehouse was made. -/
def SelectedBrand (g : TPCCGenerator) (tries : ℕ) (l : Load F) (originals : List ℤ) (item : NewOrderItem)
    (info : ItemInfo F) : Prop :=
  ∃ l₁ rows, g.load tries (item.olSupplyWId - 1).toNat l = some ((), l₁) ∧ g.Selects tries l₁ rows ∧
    (info.brandGeneric = ItemInfo.brand ↔ item.iId ∈ originals ∧ item.iId ∈ rows)

/-- **A tenth of the rows is marked**: of the items, and of the stock of a warehouse. After a load, and whatever has
run since, a new order reports those lines as brands whose item and whose stock row have been selected. -/
theorem original_tenth (g : TPCCGenerator) (tries : ℕ) :
    (∀ l l' : Load F, g.makeItemsTable tries l = some ((), l') → ∃ rows, ∃ items : List (Item F),
      g.Selects tries l rows ∧ Tenth g.numItems rows (items.map fun item => (item.iId, item.iData)) ∧
        insertAll (items.map .item) l.tables = some ((), l'.tables)) ∧
    (∀ (w : ℤ) (l l' : Load F), g.makeStock tries w l = some ((), l') → ∃ rows, ∃ stock : List Stock,
      g.Selects tries l rows ∧ (∀ s ∈ stock, s.sWId = w) ∧
        Tenth g.numItems rows (stock.map fun s => (s.sIId, s.sData)) ∧
        insertAll (stock.map .stock) l.tables = some ((), l'.tables)) ∧
    ∀ (warehouses drawn : ℕ) (l' : Load F), g.load tries warehouses ⟨Tables.empty, drawn⟩ = some ((), l') →
      ∃ originals, g.Selects tries (⟨Tables.empty, drawn⟩ : Load F) originals ∧
        ∀ calls replies t, commitAll calls l'.tables = some (replies, t) → ∀ w d c items (x : Txn F),
          x.Places w d c items → ∀ free out t', x.reply.commit free t = some (.newOrder true out, t') →
            List.Forall₂ (g.SelectedBrand tries ⟨Tables.empty, drawn⟩ originals) items out.items := by
  refine ⟨fun l l' => makeItemsTable_tenth, fun w l l' => makeStock_tenth, fun warehouses drawn l' h => ?_⟩
  obtain ⟨originals, hselect, hitems⟩ := items_marked h
  refine ⟨originals, hselect, fun calls replies t hrun w d c items x hx free out t' hnew => ?_⟩
  have ht := (Loads.exists_db ⟨tries, drawn, l', h, rfl⟩).1
  refine (branded_of_run ht hrun hx hnew).imp ?_
  rintro item info ⟨s, tuple, hs, hid, htuple, hbrand⟩
  obtain ⟨l₁, rows, hbefore, hselect, hstock⟩ := stock_marked h hs
  exact ⟨l₁, rows, hbefore, hselect, by rw [hbrand, hstock, hitems _ _ hid htuple, and_comm]⟩

/-- Ten items, of which one is marked. -/
theorem original_tenth_ten : ∃ l' : Load ℚ, ∃ rows made,
    (cycling 0 10 1 (by decide) (by decide)).makeItemsTable 1 ⟨Tables.empty, 0⟩ = some ((), l') ∧
      Tenth 10 rows made ∧ rows.length = 1 := by
  have hrun : ((cycling 0 10 1 (by decide) (by decide)).makeItemsTable 1 (⟨Tables.empty, 0⟩ : Load ℚ)).isSome := by
    decide +kernel
  obtain ⟨⟨⟨⟩, l'⟩, hrun⟩ := Option.isSome_iff_exists.mp hrun
  obtain ⟨rows, items, ⟨n, hselect⟩, htenth, -⟩ := (original_tenth (F := ℚ) _ _).1 _ _ hrun
  have hlen := (selectUniqueIds_yields (by decide) False.elim : Rx.Yields False _ _).result hselect
  exact ⟨l', rows, _, hrun, htenth, hlen.length⟩

end TPCCGenerator

end TpccBench
