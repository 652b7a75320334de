import TpccBench.Db.NewOrder
import TpccBench.Load.Loaded

/-!
# The text on a line

A line of an order has a copy of a text of its stock row, which has one for each district. They
are numbered from zero, and the districts from one: so the last district reads behind the array,
where the next column is, and every other district reads the text after its own.
-/

namespace TpccBench

open Prog

variable {F : Type}

namespace TPCCGenerator

variable [Money F] {g : TPCCGenerator} {warehouses : ℕ} {t : Tables F}

/-- **The texts of a stock row** that was loaded. -/
theorem Loads.makesStock (ht : g.Loads warehouses t) {w i : ℤ} {s : Stock} (hs : t.db.row .stock (w, i) = some s) :
    MakesStock w i s := by
  obtain ⟨-, x, hx, hdb⟩ := ht.exists_db
  rw [hdb] at hs
  have hs : g.rowOf warehouses x .stock (w, i) = some s := hs
  rw [rowOf] at hs
  split at hs
  · next hin =>
    obtain rfl := Option.some.inj hs
    exact (hx.at hin.1).stockAt hin.2
  · exact absurd hs (by simp)

end TPCCGenerator

/-- An entry of the array. -/
theorem Stock.distInfo_of_lt (s : Stock) {d : ℤ} {i : Fin 10} (hi : (i.val : ℤ) = d) :
    s.distInfo d = some ((s.sDist i).widen (by decide)) := by
  have hlt := i.isLt
  rw [distInfo, dif_pos ⟨by omega, by omega⟩]
  have heq : (⟨d.toNat, by omega⟩ : Fin 10) = i := Fin.ext (show d.toNat = i.val by omega)
  rw [heq]

/-- What lies behind the array. -/
theorem Stock.distInfo_ten (s : Stock) (h : 26 ≤ s.sData.chars.length) :
    ∃ info : CString 25, s.distInfo 10 = some info ∧ info.chars.length = 25 := by
  refine ⟨⟨s.sData.chars.take 25, List.length_take_le _ _⟩, ?_, ?_⟩
  · rw [distInfo, dif_neg (by decide), if_pos rfl]
  · change (s.sData.chars.take 25).length = 25
    rw [List.length_take]
    omega

/-- **The lines of an order have the text** of an entry of their stock rows. -/
def Db.CopiesText (db db' : Db F) (w d o : ℤ) (items : List NewOrderItem) (i : Fin 10) : Prop :=
  ∀ (n : ℕ) item, items[n]? = some item → ∃ s line, db.row .stock (item.olSupplyWId, item.iId) = some s ∧
    db'.row .orderLine (w, d, o, (n : ℤ) + 1) = some line ∧
      line.olDistInfo.chars = (s.sDist i).chars ∧ line.olDistInfo.chars.length = 24

namespace TPCCGenerator

variable [Money F] {g : TPCCGenerator} {warehouses : ℕ} {t t' : Tables F}

/-- What is known of the lines of an order that was placed on loaded tables. -/
theorem Loads.copiesText (ht : g.Loads warehouses t) {w d c : ℤ} {items : List NewOrderItem} {x : Txn F}
    (hx : x.Places w d c items) {free : Option HashOrder} {r : Reply F}
    (hrun : x.reply.commit free t = some (r, t')) (hr : r.committed = true) {dist : District F}
    (hdist : t.db.row .district (w, d) = some dist) {n : ℕ} {item : NewOrderItem} (hn : items[n]? = some item) :
    ∃ s line, t.db.row .stock (item.olSupplyWId, item.iId) = some s ∧
      t'.db.row .orderLine (w, d, dist.dNextOId, (n : ℤ) + 1) = some line ∧
        s.distInfo d = some line.olDistInfo ∧ MakesStock item.olSupplyWId item.iId s := by
  have hs := ht.exists_db.1
  obtain ⟨-, y, hon, hy⟩ := Txn.commit_onDb hs hrun
  rcases hx.onDb hon hs.keyed hy with ⟨hfalse, -⟩ | ⟨-, p, ls, hp, hdb⟩
  · exact absurd (hr.symm.trans hfalse) (by decide)
  · obtain ⟨s, tuple, info, hstock, -, hinfo, hline⟩ := hp.line_at hn
    have hid : p.oId = dist.dNextOId := by
      rw [Placement.oId, Option.some.inj (hp.district.symm.trans hdist)]
    rw [hid] at hline
    have hline' : t'.db.row .orderLine (w, d, dist.dNextOId, (n : ℤ) + 1) =
        some (.placed w d dist.dNextOId (n + 1) item ((item.olQuantity : F) * tuple.iPrice) info) := by
      rw [hdb, Db.takeStock_row_of_ne (by decide)]
      exact hline
    exact ⟨s, _, hstock, hline', hinfo, ht.makesStock hstock⟩

/-- In the last district the first line has one character more than a text. -/
theorem Loads.not_copiesText (ht : g.Loads warehouses t) {w c : ℤ} {item : NewOrderItem}
    {rest : List NewOrderItem} {x : Txn F} (hx : x.Places w 10 c (item :: rest)) {free : Option HashOrder}
    {r : Reply F} (hrun : x.reply.commit free t = some (r, t')) (hr : r.committed = true) {dist : District F}
    (hdist : t.db.row .district (w, 10) = some dist) :
    ¬∃ i, t.db.CopiesText t'.db w 10 dist.dNextOId (item :: rest) i := by
  rintro ⟨i, hcopies⟩
  obtain ⟨s, line, hstock, hline, hinfo, hmakes⟩ := ht.copiesText hx hrun hr hdist (n := 0) rfl
  obtain ⟨info, hinfo', hlen⟩ := s.distInfo_ten hmakes.data
  rw [hinfo'] at hinfo
  obtain ⟨s', line', -, hline', -, hlen'⟩ := hcopies 0 item rfl
  obtain rfl := Option.some.inj (hline.symm.trans hline')
  rw [← Option.some.inj hinfo, hlen] at hlen'
  omega

/-- **The text on the lines** of an order in a district: a copy of the entry with the district's
number, if there is one. -/
theorem district_text_iff (ht : g.Loads warehouses t) {w d c : ℤ} {items : List NewOrderItem} {x : Txn F}
    (hx : x.Places w d c items) {free : Option HashOrder} {r : Reply F}
    (hrun : x.reply.commit free t = some (r, t')) (hr : r.committed = true) {dist : District F}
    (hdist : t.db.row .district (w, d) = some dist) :
    ((∃ i, t.db.CopiesText t'.db w d dist.dNextOId items i) ↔ d ≤ 9 ∨ items = []) ∧
      ∀ i : Fin 10, (i.val : ℤ) = d → t.db.CopiesText t'.db w d dist.dNextOId items i := by
  have hd : validDistrict d := (primary_district_iff.mp (ht.exists_db.1.keyed.keys hdist)).2
  have hentry : ∀ i : Fin 10, (i.val : ℤ) = d → t.db.CopiesText t'.db w d dist.dNextOId items i := by
    intro i hi n item hn
    obtain ⟨s, line, hstock, hline, hinfo, hmakes⟩ := ht.copiesText hx hrun hr hdist hn
    rw [s.distInfo_of_lt hi] at hinfo
    have htext : line.olDistInfo.chars = (s.sDist i).chars := by
      rw [← Option.some.inj hinfo]
      rfl
    exact ⟨s, line, hstock, hline, htext, by rw [htext, hmakes.dist]⟩
  refine ⟨⟨?_, ?_⟩, hentry⟩
  · intro hcopies
    by_contra hout
    obtain ⟨hten, hne⟩ := not_or.mp hout
    obtain ⟨item, rest, rfl⟩ := List.exists_cons_of_ne_nil hne
    have hle : d ≤ 10 := hd.2
    obtain rfl : d = 10 := by omega
    exact ht.not_copiesText hx hrun hr hdist hcopies
  · rintro (hle | rfl)
    · have hpos : 1 ≤ d := hd.1
      exact ⟨⟨d.toNat, by omega⟩, hentry _ (by simp only; omega)⟩
    · exact ⟨0, fun n item hn => absurd hn (by simp)⟩

/-! ### One order in each district -/

def orderIn (d : ℤ) : Txn ℚ := .newOrderHome 1 d 1 [⟨1, 1, 5⟩] (List.replicate 14 '0') .new

theorem orderIn_places (d : ℤ) : (orderIn d).Places 1 d 1 [⟨1, 1, 5⟩] := .newOrderHome _ _

theorem orderIn_committed : ∀ d ∈ idsTo 10,
    ((orderIn d).reply.commit none generatedTables).any (fun r => r.1.committed) = true ∧
      (generatedTables.db.row .district (1, d)).any (fun dist => dist.dNextOId = 2) = true := by
  decide +kernel

theorem exists_orderIn {d : ℤ} (hd : d ∈ idsTo 10) : ∃ r t' dist,
    (orderIn d).reply.commit none generatedTables = some (r, t') ∧ r.committed = true ∧
      generatedTables.db.row .district (1, d) = some dist ∧ dist.dNextOId = 2 := by
  obtain ⟨hrun, hdist⟩ := orderIn_committed d hd
  obtain ⟨⟨r, t'⟩, hrun, hr⟩ := (Option.any_eq_true _ _).mp hrun
  obtain ⟨dist, hdist, hid⟩ := (Option.any_eq_true _ _).mp hdist
  exact ⟨r, t', dist, hrun, hr, hdist, of_decide_eq_true hid⟩

/-- An order in the third district. -/
theorem district_text_third : ∃ r t', (orderIn 3).reply.commit none generatedTables = some (r, t') ∧
    r.committed = true ∧ generatedTables.db.CopiesText t'.db 1 3 2 [⟨1, 1, 5⟩] 3 := by
  obtain ⟨r, t', dist, hrun, hr, hdist, hid⟩ := exists_orderIn (d := 3) (by decide)
  exact ⟨r, t', hrun, hr, hid ▸ (district_text_iff generatedTables_loads (orderIn_places 3) hrun hr hdist).2 3 rfl⟩

/-- An order in the last district. -/
theorem district_text_last : smallGenerator.Loads 1 generatedTables ∧ validDistrict 10 ∧
    ∃ r t', (orderIn 10).reply.commit none generatedTables = some (r, t') ∧ r.committed = true ∧
      ¬∃ i, generatedTables.db.CopiesText t'.db 1 10 2 [⟨1, 1, 5⟩] i := by
  obtain ⟨r, t', dist, hrun, hr, hdist, hid⟩ := exists_orderIn (d := 10) (by decide)
  exact ⟨generatedTables_loads, by decide, r, t', hrun, hr,
    hid ▸ generatedTables_loads.not_copiesText (orderIn_places 10) hrun hr hdist⟩

end TPCCGenerator

end TpccBench
