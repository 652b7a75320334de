import TpccBench.Db.SplitPayment
import TpccBench.Lib.CharArray

/-!
# The history of a bad credit

A payment of a customer with bad credit is put in front of `c_data`, in place, and what does not
fit any more falls off at the end. So after any number of payments `c_data` has the latest of them
first, as far as there is room (`TpccBench.bad_credit_log`).
-/

namespace TpccBench

open Prog

/-! ### In the array -/

/-- `Customer::MAX_DATA`. -/
abbrev Customer.maxData : ℕ := 500

/-- What is left of a string that something was put in front of. -/
def logged (s entry : List Char) : List Char := (entry ++ s).take Customer.maxData

/-- The history is put in front of `c_data`: a move and a copy. -/
def Tx.prependHistory (cData history : List Char) : Option (List Char) := do
  let characters := history.length
  guard (characters < Customer.maxData + 1)
  let currentKeep ← CharArray.strlen cData
  let currentKeep := if currentKeep + characters > Customer.maxData then Customer.maxData - characters
    else currentKeep
  guard (currentKeep + characters ≤ Customer.maxData)
  let cData ← CharArray.memmove cData characters 0 currentKeep
  let cData ← CharArray.memcpy cData 0 history
  let cData ← CharArray.store cData (characters + currentKeep) nul
  let length ← CharArray.strlen cData
  guard (length = characters + currentKeep)
  return cData

/-- How much is kept. -/
theorem logged_keep (s : List Char) {entry : List Char} (hentry : entry.length ≤ Customer.maxData) :
    logged s entry = entry ++ s.take (if s.length + entry.length > Customer.maxData then
      Customer.maxData - entry.length else s.length) := by
  rw [logged, List.take_append, List.take_of_length_le hentry]
  split
  · rfl
  · next hle => rw [List.take_of_length_le (by omega), List.take_of_length_le le_rfl]

/-- **The move and the copy stay in the array**, and leave a string in it. -/
theorem Tx.prependHistory_spec {a s entry : List Char} (hlen : a.length = Customer.maxData + 1)
    (h : CharArray.Contains a s) (hentry : entry.length ≤ Customer.maxData) (hnul : nul ∉ entry) :
    ∃ a', Tx.prependHistory a entry = some a' ∧ a'.length = Customer.maxData + 1 ∧
      CharArray.Contains a' (logged s entry) := by
  have hs := h.length_lt
  obtain ⟨k, hk⟩ : ∃ k, k = if s.length + entry.length > Customer.maxData then
    Customer.maxData - entry.length else s.length := ⟨_, rfl⟩
  have hks : k ≤ s.length := by rw [hk]; split <;> omega
  have hfits : k + entry.length ≤ Customer.maxData := by rw [hk]; split <;> omega
  have hlogged : logged s entry = entry ++ s.take k := by rw [logged_keep s hentry, hk]
  have hmoved : CharArray.memmove a entry.length 0 k =
      some (a.take entry.length ++ s.take k ++ a.drop (entry.length + k)) := by
    rw [CharArray.memmove, if_pos (by omega), List.drop_zero, h.take_eq hks]
  have hcopied : CharArray.memcpy (a.take entry.length ++ s.take k ++ a.drop (entry.length + k)) 0 entry =
      some (entry ++ s.take k ++ a.drop (entry.length + k)) := by
    have htake : (a.take entry.length).length = entry.length := by rw [List.length_take]; omega
    rw [CharArray.memcpy, if_pos (by simp only [List.length_append]; omega), List.take_zero, List.nil_append,
      Nat.zero_add, List.append_assoc, List.drop_append_of_le_length htake.ge, List.drop_of_length_le htake.le,
      List.nil_append, List.append_assoc]
  obtain ⟨a', ha'⟩ : ∃ a', a' = (entry ++ s.take k) ++ nul :: a.drop (entry.length + k + 1) := ⟨_, rfl⟩
  have hfront : (entry ++ s.take k).length = entry.length + k := by
    rw [List.length_append, List.length_take, min_eq_left hks]
  have hended : CharArray.store (entry ++ s.take k ++ a.drop (entry.length + k)) (entry.length + k) nul =
      some a' := by
    rw [CharArray.store, if_pos (by rw [List.length_append, hfront, List.length_drop]; omega),
      List.drop_eq_getElem_cons (by omega), List.set_append_right _ _ hfront.le, hfront, Nat.sub_self,
      List.set_cons_zero, ha']
  have hcontains : CharArray.Contains a' (entry ++ s.take k) := by
    refine ⟨fun hmem => ?_, _, ha'⟩
    rcases List.mem_append.mp hmem with hmem | hmem
    · exact hnul hmem
    · exact h.nul_notMem (List.mem_of_mem_take hmem)
  refine ⟨a', ?_, ?_, hlogged ▸ hcontains⟩
  · have hstrlen := hcontains.strlen_eq
    rw [hfront] at hstrlen
    simp only [Tx.prependHistory, h.strlen_eq, ← hk, Option.bind_eq_bind, Option.bind_some, guard,
      if_pos (Nat.lt_succ_of_le hentry), if_pos hfits, hmoved, hcopied, hended, hstrlen, if_true]
    rfl
  · rw [ha', List.length_append, hfront, List.length_cons, List.length_drop]
    omega

/-! ### Any number of times -/

theorem length_logged (s entry : List Char) : (logged s entry).length ≤ Customer.maxData := by
  rw [logged, List.length_take]
  exact min_le_left _ _

/-- What fell off would have fallen off anyway. -/
theorem logged_take (s entry : List Char) : logged (s.take Customer.maxData) entry = logged s entry := by
  rw [logged, logged, List.take_append, List.take_append, List.take_take, min_eq_left (Nat.sub_le _ _)]

/-- **The newest first**, as far as there is room. -/
theorem foldl_logged {s : List Char} (hs : s.length ≤ Customer.maxData) (entries : List (List Char)) :
    entries.foldl logged s = (entries.reverse.flatten ++ s).take Customer.maxData := by
  induction entries using List.reverseRecOn with
  | nil => exact (List.take_of_length_le hs).symm
  | append_singleton entries entry ih =>
    rw [List.foldl_append, List.foldl_cons, List.foldl_nil, ih, logged_take, List.reverse_append,
      List.reverse_singleton, List.singleton_append, List.flatten_cons, List.append_assoc, logged]

/-- The array after any number of payments. -/
theorem Tx.prependHistory_all {a s : List Char} (hlen : a.length = Customer.maxData + 1)
    (h : CharArray.Contains a s) {entries : List (List Char)}
    (hentries : ∀ entry ∈ entries, entry.length ≤ Customer.maxData ∧ nul ∉ entry) :
    ∃ a', entries.foldlM Tx.prependHistory a = some a' ∧ a'.length = Customer.maxData + 1 ∧
      CharArray.Contains a' (entries.foldl logged s) := by
  induction entries generalizing a s with
  | nil => exact ⟨a, rfl, hlen, h⟩
  | cons entry entries ih =>
    obtain ⟨hentry, hnul⟩ := hentries entry List.mem_cons_self
    obtain ⟨a₁, hrun₁, hlen₁, h₁⟩ := Tx.prependHistory_spec hlen h hentry hnul
    obtain ⟨a₂, hrun₂, hlen₂, h₂⟩ := ih hlen₁ h₁ fun e he => hentries e (List.mem_cons_of_mem _ he)
    refine ⟨a₂, ?_, hlen₂, h₂⟩
    rw [List.foldlM_cons, hrun₁]
    exact hrun₂

/-! ### Payments -/

variable {F : Type} [Money F] {t t' : Tables F} {cW cD c : ℤ} {cust : Customer F}

omit [Money F] in
/-- What a payment is of: all of it, or the part at the warehouse of the customer. -/
inductive PaymentPart (F : Type)
  | whole (now : List Char)
  | remote (output : PaymentOutput F)

/-- A payment of a customer of a district. -/
structure CustomerPayment (F : Type) where
  who : CustomerChoice
  w : ℤ
  d : ℤ
  hAmount : F
  part : PaymentPart F
  free : Option HashOrder

/-- What is put in front of `c_data`, if the credit is bad. -/
def CustomerPayment.entry (cust : Customer F) (p : CustomerPayment F) : List Char :=
  Tx.paymentHistory cust p.d p.w p.hAmount

/-- `payment` or `paymentRemote`. -/
def CustomerPayment.exec (cW cD : ℤ) (p : CustomerPayment F) : Op F (PaymentOutput F) :=
  match p.part with
  | .whole now => (p.who.payment p.w p.d cW cD p.hAmount now).commit p.free
  | .remote output => (p.who.paymentRemote p.w p.d cW cD p.hAmount output).commit p.free

/-- The payment is of the customer, what is put in front of `c_data` has the length of a string in
it, and the rows of a whole payment are there. -/
structure CustomerPayment.Valid (t : Tables F) (cW cD c : ℤ) (cust : Customer F) (p : CustomerPayment F) :
    Prop where
  chooses : p.who.Chooses cW cD t c
  fits : (p.entry cust).length ≤ Customer.maxData
  home (now : List Char) : p.part = .whole now → (t.db.row .warehouse p.w).isSome ∧
    (t.db.row .district (p.w, p.d)).isSome ∧ now.length ≤ datetimeSize

/-- `c_data` after a payment. -/
def Customer.dataAfter (cust : Customer F) (s entry : List Char) : List Char :=
  if cust.cCredit.chars = Customer.badCredit then logged s entry else s

/-- `paymentData` puts the history in front. -/
theorem paymentData_eq {p : CustomerPayment F} (hfits : (p.entry cust).length ≤ Customer.maxData) :
    ∃ cData, Tx.paymentData cust p.d p.w p.hAmount = some cData ∧
      cData.chars = cust.dataAfter cust.cData.chars (p.entry cust) := by
  rw [Tx.paymentData, Customer.dataAfter]
  split
  · obtain ⟨cData, hcpy⟩ := Option.isSome_iff_exists.mp
      (CString.strcpy_isSome (n := 500) (length_logged cust.cData.chars (p.entry cust)))
    refine ⟨cData, ?_, CString.strcpy_eq_some hcpy⟩
    rw [logged_keep _ hfits] at hcpy
    exact (if_pos (Nat.lt_succ_of_le hfits)).trans hcpy
  · exact ⟨_, rfl, rfl⟩

/-- The array of `c_data` after a payment contains `c_data` after it. -/
theorem prependHistory_contains {p : CustomerPayment F} (hbad : cust.cCredit.chars = Customer.badCredit)
    (hfits : (p.entry cust).length ≤ Customer.maxData) (hnul : nul ∉ p.entry cust) {a : List Char}
    (hlen : a.length = Customer.maxData + 1) (h : CharArray.Contains a cust.cData.chars) :
    ∃ a' cData, Tx.prependHistory a (p.entry cust) = some a' ∧
      Tx.paymentData cust p.d p.w p.hAmount = some cData ∧ CharArray.Contains a' cData.chars := by
  obtain ⟨a', hrun, -, h'⟩ := Tx.prependHistory_spec hlen h hfits hnul
  obtain ⟨cData, hdata, hchars⟩ := paymentData_eq hfits
  refine ⟨a', cData, hrun, hdata, ?_⟩
  rw [hchars, Customer.dataAfter, if_pos hbad]
  exact h'

/-- What follows from a payment of the customer. -/
structure Paid (cW cD c : ℤ) (t t' : Tables F) (cust' : Customer F) : Prop where
  sound : t'.Sound
  evolves : Evolves t t'
  names : t'.customersByName = t.customersByName
  customer : t'.db.row .customer (cW, cD, c) = some cust'
  nameKey (id : ℤ × ℤ × ℤ) : (t'.db.row .customer id).map Op.nameKey = (t.db.row .customer id).map Op.nameKey
  warehouse {id : ℤ} : (t.db.row .warehouse id).isSome → (t'.db.row .warehouse id).isSome
  district {id : ℤ × ℤ} : (t.db.row .district id).isSome → (t'.db.row .district id).isSome

/-- **A payment of a customer.** -/
theorem CustomerPayment.exec_spec (ht : t.Sound) (hcust : t.db.row .customer (cW, cD, c) = some cust)
    {p : CustomerPayment F} (h : p.Valid t cW cD c cust) :
    ∃ cData out t', cData.chars = cust.dataAfter cust.cData.chars (p.entry cust) ∧ out.cData = cData ∧
      p.exec cW cD t = some (out, t') ∧ Paid cW cD c t t' (cust.paid p.hAmount cData) := by
  obtain ⟨cData, hdata, hchars⟩ := paymentData_eq h.fits
  rw [exec]
  cases hpart : p.part with
  | whole now =>
    obtain ⟨hware, hdist, hnow⟩ := h.home now hpart
    obtain ⟨ware, hware⟩ := Option.isSome_iff_exists.mp hware
    obtain ⟨dist, hdist⟩ := Option.isSome_iff_exists.mp hdist
    obtain ⟨hDate, hdate⟩ : ∃ hDate, CString.strcpy datetimeSize now = some hDate := ⟨_, dif_pos hnow⟩
    have hp : PaidHome.Valid ⟨ware, dist, hDate⟩ p.w p.d now t.db := ⟨hware, hdist, hdate⟩
    have hj := payment_journaled p.w p.d cW cD c p.hAmount now
    obtain ⟨t', hrun, hsound, hdb⟩ := (payment_refines p.w p.d cW cD c p.hAmount now).commit_eq_some hj ht
      ((Db.payment_iff ht.keyed).mpr ⟨_, cust, cData, hp, hcust, hdata, rfl⟩) p.free
    have hrest : ((⟨ware, dist, hDate⟩ : PaidHome F).apply p.w p.d cW cD c p.hAmount t.db).row .customer =
        t.db.row .customer := PaidHome.apply_row_of_ne (by simp)
    refine ⟨cData, _, t', hchars, rfl, (h.chooses.payment_commit ht now p.free).trans hrun, hsound,
      hj.commit_evolves ht.linked hrun, hj.commit_customersByName ht.linked hrun, ?_, ?_, ?_, ?_⟩
    · rw [hdb, Db.setRow_row_same]
    · intro id
      rw [hdb]
      exact Db.setRow_nameKey hrest hcust rfl
    · intro id hid
      rw [hdb, Db.setRow_row_of_ne _ (by simp), PaidHome.apply_warehouse]
      split
      · rfl
      · exact hid
    · intro id hid
      rw [hdb, Db.setRow_row_of_ne _ (by simp), PaidHome.apply_district]
      split
      · rfl
      · exact hid
  | remote output =>
    have hj := paymentRemote_journaled p.w p.d cW cD c p.hAmount output
    obtain ⟨t', hrun, hsound, hdb⟩ := (paymentRemote_refines p.w p.d cW cD c p.hAmount output).commit_eq_some hj ht
      ((Db.paymentRemote_iff ht.keyed).mpr ⟨cust, cData, hcust, hdata, rfl⟩) p.free
    refine ⟨cData, _, t', hchars, rfl, (h.chooses.paymentRemote_commit ht output p.free).trans hrun, hsound,
      hj.commit_evolves ht.linked hrun, hj.commit_customersByName ht.linked hrun, ?_, ?_, ?_, ?_⟩
    · rw [hdb, Db.setRow_row_same]
    · intro id
      rw [hdb]
      exact Db.setRow_nameKey rfl hcust rfl
    · intro id hid
      rwa [hdb, Db.setRow_row_of_ne _ (by simp)]
    · intro id hid
      rwa [hdb, Db.setRow_row_of_ne _ (by simp)]

/-- A payment stays one of the customer. -/
theorem CustomerPayment.Valid.paid {cust' : Customer F} {p : CustomerPayment F} (h : p.Valid t cW cD c cust)
    (ht : t.Sound) (hp : Paid cW cD c t t' cust') (hentry : p.entry cust' = p.entry cust) :
    p.Valid t' cW cD c cust' where
  chooses := h.chooses.evolves hp.evolves ht hp.sound hp.names hp.nameKey
  fits := by
    rw [hentry]
    exact h.fits
  home now hnow := by
    obtain ⟨hw, hd, hlen⟩ := h.home now hnow
    exact ⟨hp.warehouse hw, hp.district hd, hlen⟩

/-- `c_data` after payments: the newest first if the credit is bad, as far as there is room. -/
def Customer.log (cust : Customer F) (ps : List (CustomerPayment F)) : List Char :=
  if cust.cCredit.chars = Customer.badCredit then
    ((ps.map (CustomerPayment.entry cust)).reverse.flatten ++ cust.cData.chars).take Customer.maxData
  else cust.cData.chars

/-- The log, payment by payment. -/
theorem Customer.log_eq_foldl (cust : Customer F) (ps : List (CustomerPayment F)) :
    cust.log ps = ps.foldl (fun s p => cust.dataAfter s (p.entry cust)) cust.cData.chars := by
  rw [log]
  split
  · next hbad =>
    rw [← foldl_logged cust.cData.length_le, List.foldl_map]
    simp only [Customer.dataAfter, if_pos hbad]
  · next hgood =>
    simp only [Customer.dataAfter, if_neg hgood]
    exact (List.foldl_fixed ps).symm

/-- **The payments of a customer**, one after the other. -/
theorem CustomerPayment.mapM_spec {ps : List (CustomerPayment F)} (ht : t.Sound)
    (hcust : t.db.row .customer (cW, cD, c) = some cust) (h : ∀ p ∈ ps, p.Valid t cW cD c cust) :
    ∃ outs t' cust', ps.mapM (exec cW cD) t = some (outs, t') ∧
      t'.db.row .customer (cW, cD, c) = some cust' ∧
      cust'.cData.chars = ps.foldl (fun s p => cust.dataAfter s (p.entry cust)) cust.cData.chars ∧
      outs.length = ps.length ∧ ∀ i out, outs[i]? = some out → out.cData.chars =
        (ps.take (i + 1)).foldl (fun s p => cust.dataAfter s (p.entry cust)) cust.cData.chars := by
  induction ps generalizing t cust with
  | nil => exact ⟨[], t, cust, rfl, hcust, rfl, rfl, fun i out hout => nomatch hout⟩
  | cons p ps ih =>
    obtain ⟨cData, out, t₁, hchars, hout, hrun, hpaid⟩ := exec_spec ht hcust (h p List.mem_cons_self)
    obtain ⟨outs, t₂, cust₂, hruns, hcust₂, hchars₂, hlen, houts⟩ := ih hpaid.sound hpaid.customer
      fun q hq => (h q (List.mem_cons_of_mem _ hq)).paid ht hpaid rfl
    have hdata : (cust.paid p.hAmount cData).cData.chars = cust.dataAfter cust.cData.chars (p.entry cust) := hchars
    refine ⟨out :: outs, t₂, cust₂, ?_, hcust₂, ?_, by rw [List.length_cons, List.length_cons, hlen], ?_⟩
    · rw [List.mapM_cons, bind_apply, hrun, Option.bind_some, bind_apply, hruns, Option.bind_some, pure_apply]
    · rw [hchars₂, hdata, List.foldl_cons]
      rfl
    · intro i out' hout'
      cases i with
      | zero =>
        obtain rfl := Option.some.inj hout'
        rw [hout, hchars]
        rfl
      | succ i =>
        rw [houts i out' hout', hdata, List.take_succ_cons, List.foldl_cons]
        rfl

/-- **A bad credit has a bounded log**, the newest payment first. In the array of `c_data` this is
so for any texts of the payments; the payments of a customer do so with theirs, and report what
they leave. What the array contains after a payment is what the payment leaves. -/
theorem bad_credit_log :
    (∀ {a s : List Char} {entries : List (List Char)}, a.length = Customer.maxData + 1 →
      CharArray.Contains a s → (∀ entry ∈ entries, entry.length ≤ Customer.maxData ∧ nul ∉ entry) →
      ∃ a', entries.foldlM Tx.prependHistory a = some a' ∧ a'.length = Customer.maxData + 1 ∧
        CharArray.Contains a' ((entries.reverse.flatten ++ s).take Customer.maxData)) ∧
    (∀ {t : Tables F} {cW cD c : ℤ} {cust : Customer F} {ps : List (CustomerPayment F)}, t.Sound →
      t.db.row .customer (cW, cD, c) = some cust → (∀ p ∈ ps, p.Valid t cW cD c cust) →
      ∃ outs t' cust', ps.mapM (CustomerPayment.exec cW cD) t = some (outs, t') ∧
        t'.db.row .customer (cW, cD, c) = some cust' ∧ cust'.cData.chars = cust.log ps ∧
        outs.length = ps.length ∧
        ∀ i out, outs[i]? = some out → out.cData.chars = cust.log (ps.take (i + 1))) ∧
    ∀ {cust : Customer F} {p : CustomerPayment F} {a : List Char}, cust.cCredit.chars = Customer.badCredit →
      (p.entry cust).length ≤ Customer.maxData → nul ∉ p.entry cust → a.length = Customer.maxData + 1 →
      CharArray.Contains a cust.cData.chars → ∃ a' cData, Tx.prependHistory a (p.entry cust) = some a' ∧
        Tx.paymentData cust p.d p.w p.hAmount = some cData ∧ CharArray.Contains a' cData.chars := by
  refine ⟨?_, ?_, fun hbad hfits hnul hlen h => prependHistory_contains hbad hfits hnul hlen h⟩
  · intro a s entries hlen h hentries
    obtain ⟨a', hrun, hlen', h'⟩ := Tx.prependHistory_all hlen h hentries
    have hs : s.length ≤ Customer.maxData := by have := h.length_lt; omega
    exact ⟨a', hrun, hlen', foldl_logged hs entries ▸ h'⟩
  · intro t cW cD c cust ps ht hcust h
    obtain ⟨outs, t', cust', hrun, hcust', hdata, hlen, houts⟩ := CustomerPayment.mapM_spec ht hcust h
    refine ⟨outs, t', cust', hrun, hcust', hdata.trans (cust.log_eq_foldl ps).symm, hlen, fun i out hout => ?_⟩
    rw [houts i out hout, cust.log_eq_foldl]

/-- The small database, with a customer whose credit is bad. -/
def badCreditDatabase : List (Insertion ℚ) :=
  smallDatabase ++ [.customer { smallCustomer 2 ⟨['A'], by decide⟩ .empty with
    cCredit := ⟨Customer.badCredit, by decide⟩ }]

theorem insertAll_badCredit : (insertAll badCreditDatabase Tables.empty).isSome := by decide +kernel

def badCreditTables : Tables ℚ := ((insertAll badCreditDatabase Tables.empty).get insertAll_badCredit).2

theorem badCreditTables_sound : badCreditTables.Sound := by
  have hrun : insertAll badCreditDatabase Tables.empty = some ((), badCreditTables) :=
    (Option.some_get insertAll_badCredit).symm.trans (congrArg some (Prod.ext (Subsingleton.elim _ _) rfl))
  exact (insertAll_onDb Tables.empty_sound hrun).1

/-- An entry that fills the array, and a payment of each part. -/
theorem bad_credit_log_small :
    (∃ a', [List.replicate 3 'b', List.replicate 499 'c'].foldlM Tx.prependHistory
        ('a' :: nul :: List.replicate 499 'z') = some a' ∧ a'.length = 501 ∧
      CharArray.Contains a' (([List.replicate 3 'b', List.replicate 499 'c'].reverse.flatten ++ ['a']).take 500)) ∧
    ∃ (cust : Customer ℚ) (outs : List (PaymentOutput ℚ)), cust.cCredit.chars = Customer.badCredit ∧
      outs.length = 2 ∧ ∀ i out, outs[i]? = some out → out.cData.chars = cust.log
        (([⟨.id 2, 1, 1, 5, .whole [], none⟩, ⟨.id 2, 1, 1, 7, .remote usedBuffer, none⟩] :
          List (CustomerPayment ℚ)).take (i + 1)) := by
  have hlog := bad_credit_log (F := ℚ)
  refine ⟨hlog.1 (by rw [List.length_cons, List.length_cons, List.length_replicate])
    ⟨by decide, ⟨_, rfl⟩⟩ (fun entry hentry => ?_), ?_⟩
  · rcases List.mem_pair.mp hentry with rfl | rfl
    all_goals
      rw [List.length_replicate]
      exact ⟨by decide, fun hmem => absurd (List.eq_of_mem_replicate hmem) (by decide)⟩
  have hrow : (badCreditTables.db.row .customer (1, 1, 2)).map
      (fun c => (c.cCredit.chars, c.cId, c.cDId, c.cWId)) = some (Customer.badCredit, 2, 1, 1) := by decide +kernel
  obtain ⟨cust, hcust, hids⟩ := Option.map_eq_some_iff.mp hrow
  obtain ⟨hbad, hids⟩ := Prod.mk.inj hids
  obtain ⟨hid, hids⟩ := Prod.mk.inj hids
  obtain ⟨hdid, hwid⟩ := Prod.mk.inj hids
  have hvalid : ∀ p ∈ ([⟨.id 2, 1, 1, 5, .whole [], none⟩, ⟨.id 2, 1, 1, 7, .remote usedBuffer, none⟩] :
      List (CustomerPayment ℚ)), p.Valid badCreditTables 1 1 2 cust := fun p hp => by
    have hentry : (p.entry cust).length ≤ Customer.maxData := by
      rw [CustomerPayment.entry, Tx.paymentHistory, hid, hdid, hwid]
      rcases List.mem_pair.mp hp with rfl | rfl <;> decide +kernel
    rcases List.mem_pair.mp hp with rfl | rfl
    · exact ⟨rfl, hentry, fun now hnow => ⟨by decide +kernel, by decide +kernel, by
        obtain rfl := PaymentPart.whole.inj hnow
        exact Nat.zero_le _⟩⟩
    · exact ⟨rfl, hentry, fun now hnow => absurd hnow (by simp)⟩
  obtain ⟨outs, t', cust', -, -, -, hlen, houts⟩ := hlog.2.1 badCreditTables_sound hcust hvalid
  exact ⟨cust, outs, hbad, hlen, houts⟩

end TpccBench
