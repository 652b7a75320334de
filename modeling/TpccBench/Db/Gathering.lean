import TpccBench.Db.Partition

/-!
# Quantities that are combined with each other first

There are two functions `newOrderCombine`: one fills the quantities of a remote warehouse in what the home
warehouse reports, the other one fills them in the quantities of another remote warehouse. With the second one
the answers of several warehouses can be gathered on their way (`TpccBench.Nesting`), in whatever nesting.

Gathered or not, the order is the same one (`TpccBench.gathered_run`). That is so because the warehouses have
different lines: no quantity is filled in twice, and both functions assert as much.
-/

namespace TpccBench

open Prog

variable {F : Type}

/-! ### Quantities into quantities -/

/-- What `newOrderCombine` does to one of the quantities. -/
def combineQuantity (e : ℤ × ℤ) : Option ℤ :=
  if e.1 ≠ invalidQuantity then
    if e.2 = invalidQuantity then some e.1 else none
  else some e.2

/-- `newOrderCombine`, into quantities. -/
def newOrderCombineQuantities (remoteQuantities output : List ℤ) : Option (List ℤ) := do
  guard (remoteQuantities.length = output.length)
  (remoteQuantities.zip output).mapM combineQuantity

theorem newOrderCombineQuantities_eq {remoteQuantities output : List ℤ}
    (h : remoteQuantities.length = output.length) :
    newOrderCombineQuantities remoteQuantities output = (remoteQuantities.zip output).mapM combineQuantity := by
  rw [newOrderCombineQuantities, guard, if_pos h]
  rfl

/-- **One element**: what was combined is combined. -/
theorem combineInfo_of_combined {q out q' : ℤ} (h : combineQuantity (q, out) = some q') (info : ItemInfo F) :
    combineInfo (q', info) = (combineInfo (out, info)).bind fun info => combineInfo (q, info) := by
  have hskip : ∀ info : ItemInfo F, combineInfo (invalidQuantity, info) = some info := fun info =>
    if_neg (not_not.mpr rfl)
  rw [combineQuantity] at h
  split at h
  · split at h
    · next hout =>
      obtain rfl := Option.some.inj h
      dsimp only at hout
      rw [hout, hskip, Option.bind_some]
    · exact absurd h (by simp)
  · next hq =>
    obtain rfl := Option.some.inj h
    dsimp only at hq
    rw [not_not.mp hq]
    simp only [hskip, Option.bind_fun_some]

theorem combineInfos_of_combined {qs outs qs' : List ℤ} (hlen : qs.length = outs.length)
    (h : (qs.zip outs).mapM combineQuantity = some qs') (infos : List (ItemInfo F)) :
    (qs'.zip infos).mapM combineInfo =
      ((outs.zip infos).mapM combineInfo).bind fun infos => (qs.zip infos).mapM combineInfo := by
  induction qs generalizing outs qs' infos with
  | nil =>
    obtain rfl := List.length_eq_zero_iff.mp hlen.symm
    obtain rfl : qs' = [] := (Option.some.inj h).symm
    rfl
  | cons q qs ih =>
    rcases outs with _ | ⟨out, outs⟩
    · exact absurd hlen (by simp)
    rw [List.zip_cons_cons, List.mapM_cons] at h
    obtain ⟨q₁, hq₁, h⟩ := Option.bind_eq_some_iff.mp h
    obtain ⟨qs₁, hqs₁, h⟩ := Option.bind_eq_some_iff.mp h
    obtain rfl := Option.some.inj h
    rcases infos with _ | ⟨info, infos⟩
    · rfl
    simp only [List.zip_cons_cons, List.mapM_cons]
    rw [ih (Nat.succ.inj hlen) hqs₁ infos, combineInfo_of_combined hq₁ info]
    -- the first element, and the others
    cases combineInfo (out, info) with
    | none => rfl
    | some info₁ =>
      cases (outs.zip infos).mapM combineInfo with
      | none =>
        cases hone : combineInfo (q, info₁) with
        | none => simp [hone]
        | some info₂ => simp [hone]
      | some infos₁ => simp [List.mapM_cons]

/-- **What was combined is combined** with the report of the home warehouse, one after the other. -/
theorem newOrderCombine_of_combined {qs outs qs' : List ℤ} (h : newOrderCombineQuantities qs outs = some qs')
    (output : NewOrderOutput F) :
    newOrderCombine qs' output = (newOrderCombine outs output).bind fun output => newOrderCombine qs output := by
  have hlen : qs.length = outs.length := by
    by_contra hne
    rw [newOrderCombineQuantities, guard, if_neg hne] at h
    exact absurd h (by simp)
  rw [newOrderCombineQuantities_eq hlen] at h
  have hlen' : qs'.length = outs.length := by
    have hzip := (forall₂_of_mapM h).length_eq
    rw [List.length_zip, hlen, Nat.min_self] at hzip
    exact hzip.symm
  by_cases hout : outs.length = output.items.length
  · rw [newOrderCombine_eq, if_pos (hlen'.trans hout), newOrderCombine_eq outs, if_pos hout,
      combineInfos_of_combined hlen h]
    cases hinfos : (outs.zip output.items).mapM combineInfo with
    | none => rfl
    | some infos =>
      have hinfos := (forall₂_of_mapM hinfos).length_eq
      rw [List.length_zip, hout, Nat.min_self] at hinfos
      rw [Option.bind_some, Option.map_some, Option.bind_some, newOrderCombine_eq,
        if_pos (hlen.trans (hout.trans hinfos))]
  · rw [newOrderCombine_eq, if_neg (hlen' ▸ hout), newOrderCombine_eq outs, if_neg hout]
    rfl

/-- No quantity is reported of the lines of other warehouses than these. -/
def SkipsAll (remotes : List ℤ) (item : NewOrderItem) (q : ℤ) : Prop :=
  item.olSupplyWId ∉ remotes → q = invalidQuantity

/-- **Quantities of different warehouses** can be combined. -/
theorem newOrderCombineQuantities_isSome {ws ws' : List ℤ} (hws : ∀ r ∈ ws, r ∉ ws') {items : List NewOrderItem}
    {qs outs : List ℤ} (houts : List.Forall₂ (SkipsAll ws) items outs)
    (hqs : List.Forall₂ (SkipsAll ws') items qs) :
    ∃ qs', newOrderCombineQuantities qs outs = some qs' ∧ List.Forall₂ (SkipsAll (ws ++ ws')) items qs' := by
  have hone : ∀ {item q out}, SkipsAll ws item out → SkipsAll ws' item q →
      ∃ q', combineQuantity (q, out) = some q' ∧ SkipsAll (ws ++ ws') item q' := by
    intro item q out hout hq
    by_cases hvalid : q = invalidQuantity
    · refine ⟨out, if_neg (not_not.mpr hvalid), fun hw => hout fun hin => hw (List.mem_append_left _ hin)⟩
    · have hin : item.olSupplyWId ∈ ws' := by
        by_contra hin
        exact hvalid (hq hin)
      have hempty : out = invalidQuantity := hout fun h => hws _ h hin
      refine ⟨q, ?_, fun hw => absurd (List.mem_append_right _ hin) hw⟩
      rw [combineQuantity, if_pos hvalid, if_pos hempty]
  have hall : ∃ qs', (qs.zip outs).mapM combineQuantity = some qs' ∧
      List.Forall₂ (SkipsAll (ws ++ ws')) items qs' := by
    induction houts generalizing qs with
    | nil =>
      cases hqs
      exact ⟨[], rfl, List.Forall₂.nil⟩
    | cons hout _ ih =>
      cases hqs with
      | cons hq hqs =>
        obtain ⟨q', hq', hskip⟩ := hone hout hq
        obtain ⟨qs', hqs', hskips⟩ := ih hqs
        refine ⟨q' :: qs', ?_, List.Forall₂.cons hskip hskips⟩
        rw [List.zip_cons_cons, List.mapM_cons, hq', hqs']
        rfl
  obtain ⟨qs', hqs', hskips⟩ := hall
  refine ⟨qs', ?_, hskips⟩
  rw [newOrderCombineQuantities_eq (hqs.length_eq.symm.trans houts.length_eq), hqs']

/-! ### Nestings -/

/-- **How the answers of remote warehouses are gathered**: the quantities of the second nesting are combined into
those of the first one. -/
inductive Nesting
  | part (remote : ℤ)
  | join (first second : Nesting)

namespace Nesting

/-- The warehouses, in the order in which their parts are run. -/
def warehouses : Nesting → List ℤ
  | part r => [r]
  | join n m => n.warehouses ++ m.warehouses

/-- **The parts are run**, and what they answer is gathered; `none` is an answer false. -/
def gather {S : Type} (remote : ℤ → Prog S (Option (List ℤ))) : Nesting → Prog S (Option (List ℤ))
  | part r => remote r
  | join n m => do
    let first ← n.gather remote
    let second ← m.gather remote
    match first, second with
    | some qs, some qs' => return some (← newOrderCombineQuantities qs' qs)
    | _, _ => return none

/-- What is gathered is combined like the answers one by one. -/
def Alike (items : List NewOrderItem) (ws : List ℤ) (gathered : Option (List ℤ)) (parts : List (Option (List ℤ))) :
    Prop :=
  gathered = none ∧ parts.mapM id = none ∨
    ∃ q qs, gathered = some q ∧ parts.mapM id = some qs ∧ List.Forall₂ (SkipsAll ws) items q ∧
      ∀ (F : Type) (output : NewOrderOutput F),
        newOrderCombine q output = qs.foldlM (fun output qs => newOrderCombine qs output) output

theorem mapM_id_append (parts parts' : List (Option (List ℤ))) :
    (parts ++ parts').mapM id = (parts.mapM id).bind fun qs => (parts'.mapM id).map fun qs' => qs ++ qs' := by
  rw [List.mapM_append]
  cases parts.mapM id with
  | none => rfl
  | some qs => cases parts'.mapM id <;> rfl

/-- **What is gathered** of parts that report their own lines. -/
theorem gather_sim {S : Type} {remote : ℤ → Prog S (Option (List ℤ))} {items : List NewOrderItem}
    (hremote : ∀ r s part s', remote r s = some (part, s') → ∀ qs, part = some qs →
      List.Forall₂ (Skips r) items qs) (n : Nesting) (hnd : n.warehouses.Nodup) :
    Sim (fun s t => s = t) (n.gather remote) (n.warehouses.mapM remote) fun gathered parts s t =>
      Alike items n.warehouses gathered parts ∧ s = t := by
  induction n with
  | part r =>
    rintro s _ rfl
    rw [gather, warehouses, List.mapM_cons, List.mapM_nil, bind_apply]
    cases hrun : remote r s with
    | none => exact Option.Rel.none
    | some e =>
      obtain ⟨part, s'⟩ := e
      refine Option.Rel.some ⟨?_, rfl⟩
      rcases part with _ | qs
      · exact Or.inl ⟨rfl, rfl⟩
      · refine Or.inr ⟨qs, [qs], rfl, rfl, ?_, fun F output => ?_⟩
        · refine (hremote r s _ s' hrun qs rfl).imp fun item q hq hw => hq fun heq => hw ?_
          exact List.mem_singleton.mpr heq
        · rw [List.foldlM_cons]
          exact (bind_pure _).symm
  | join n m ihn ihm =>
    obtain ⟨hn, hm, hdisj⟩ := List.nodup_append.mp hnd
    rw [gather, warehouses, List.mapM_append]
    refine (ihn hn).bind fun first parts => Sim.of_fact fun hfirst => ?_
    refine (ihm hm).bind fun second parts' => Sim.of_fact fun hsecond => ?_
    rcases hfirst with ⟨rfl, hnone⟩ | ⟨q, qs, rfl, hqs, hskip, hcombine⟩
    · refine Sim.pure fun _ _ h => ⟨Or.inl ⟨rfl, ?_⟩, h⟩
      rw [mapM_id_append, hnone]
      rfl
    rcases hsecond with ⟨rfl, hnone⟩ | ⟨q', qs', rfl, hqs', hskip', hcombine'⟩
    · refine Sim.pure fun _ _ h => ⟨Or.inl ⟨rfl, ?_⟩, h⟩
      rw [mapM_id_append, hnone, hqs]
      rfl
    -- the warehouses of the second nesting are not those of the first
    obtain ⟨q'', hq'', hskips⟩ := newOrderCombineQuantities_isSome (fun r hr hr' => hdisj r hr r hr' rfl) hskip hskip'
    dsimp only
    rw [hq'']
    refine Sim.pure fun _ _ h => ⟨Or.inr ⟨q'', qs ++ qs', rfl, ?_, hskips, fun F output => ?_⟩, h⟩
    · rw [mapM_id_append, hqs, hqs']
      rfl
    · rw [newOrderCombine_of_combined hq'', List.foldlM_append, hcombine F output]
      exact congrArg _ (funext fun output => hcombine' F output)

end Nesting

/-! ### A new order whose answers are gathered -/

/-- **A new order in parts**, where what the nestings have gathered is combined. -/
def newOrderGathered {S : Type} (home : Prog S (Bool × NewOrderOutput F))
    (remote : ℤ → Prog S (Option (List ℤ))) (nestings : List Nesting) : Prog S (Bool × NewOrderOutput F) := do
  let (result, output) ← home
  let gathered ← nestings.mapM fun n => n.gather remote
  match result, gathered.mapM id with
  | true, some quantities =>
    let combined : Option (NewOrderOutput F) := quantities.foldlM (fun output qs => newOrderCombine qs output) output
    return (true, ← combined)
  | _, _ => return (false, output)

/-- What several nestings have gathered. -/
def AllAlike (gathered parts : List (Option (List ℤ))) : Prop :=
  gathered.mapM id = none ∧ parts.mapM id = none ∨
    ∃ q qs, gathered.mapM id = some q ∧ parts.mapM id = some qs ∧ ∀ (F : Type) (output : NewOrderOutput F),
      q.foldlM (fun output qs => newOrderCombine qs output) output =
        qs.foldlM (fun output qs => newOrderCombine qs output) output

theorem gathered_sim {S : Type} {remote : ℤ → Prog S (Option (List ℤ))} {items : List NewOrderItem}
    (hremote : ∀ r s part s', remote r s = some (part, s') → ∀ qs, part = some qs →
      List.Forall₂ (Skips r) items qs) (nestings : List Nesting)
    (hnd : (nestings.flatMap Nesting.warehouses).Nodup) :
    Sim (fun s t => s = t) (nestings.mapM fun n => n.gather remote)
      ((nestings.flatMap Nesting.warehouses).mapM remote) fun gathered parts s t =>
        AllAlike gathered parts ∧ s = t := by
  induction nestings with
  | nil => exact Sim.pure fun _ _ h => ⟨Or.inr ⟨[], [], rfl, rfl, fun _ _ => rfl⟩, h⟩
  | cons n nestings ih =>
    rw [List.flatMap_cons] at hnd ⊢
    obtain ⟨hn, hnd, -⟩ := List.nodup_append.mp hnd
    rw [List.mapM_cons, List.mapM_append]
    refine (n.gather_sim hremote hn).bind fun first parts => Sim.of_fact fun hfirst => ?_
    refine (ih hnd).bind fun gathered parts' => Sim.of_fact fun hrest => Sim.pure fun _ _ h => ⟨?_, h⟩
    have hcons : ∀ first : Option (List ℤ), (first :: gathered).mapM id =
        first.bind fun q => (gathered.mapM id).map fun qs => q :: qs := fun first => by
      rw [List.mapM_cons]
      cases first with
      | none => rfl
      | some q => cases gathered.mapM id <;> rfl
    rw [AllAlike, hcons, Nesting.mapM_id_append]
    rcases hfirst with ⟨rfl, hnone⟩ | ⟨q, qs, rfl, hqs, -, hcombine⟩
    · rw [hnone]
      exact Or.inl ⟨rfl, rfl⟩
    rcases hrest with ⟨hnone, hnone'⟩ | ⟨q', qs', hq', hqs', hcombine'⟩
    · rw [hnone, hnone', hqs]
      exact Or.inl ⟨rfl, rfl⟩
    · rw [hq', hqs, hqs']
      refine Or.inr ⟨q :: q', qs ++ qs', rfl, rfl, fun F output => ?_⟩
      rw [List.foldlM_cons, List.foldlM_append, hcombine F output]
      exact congrArg _ (funext fun output => hcombine' F output)

/-- **Gathered or not**, the parts are the same new order. -/
theorem newOrderGathered_eq {S : Type} {home : Prog S (Bool × NewOrderOutput F)}
    {remote : ℤ → Prog S (Option (List ℤ))} {items : List NewOrderItem}
    (hremote : ∀ r s part s', remote r s = some (part, s') → ∀ qs, part = some qs →
      List.Forall₂ (Skips r) items qs) {nestings : List Nesting}
    (hnd : (nestings.flatMap Nesting.warehouses).Nodup) :
    newOrderGathered home remote nestings =
      newOrderParts home remote (nestings.flatMap Nesting.warehouses) := by
  have hsim : Sim (fun s t => s = t) (newOrderGathered home remote nestings)
      (newOrderParts home remote (nestings.flatMap Nesting.warehouses)) fun a b s t => a = b ∧ s = t := by
    rw [newOrderGathered, newOrderParts]
    refine (Sim.refl home).bind_eq (Q := fun _ s t => s = t) fun r => ?_
    obtain ⟨result, output⟩ := r
    refine (gathered_sim hremote nestings hnd).bind fun gathered parts => Sim.of_fact fun halike => ?_
    rcases halike with ⟨hnone, hnone'⟩ | ⟨q, qs, hq, hqs, hcombine⟩
    · rw [hnone, hnone']
      cases result <;> exact Sim.pure fun _ _ h => ⟨rfl, h⟩
    · rw [hq, hqs]
      cases result with
      | false => exact Sim.pure fun _ _ h => ⟨rfl, h⟩
      | true =>
        dsimp only
        rw [hcombine F output]
        exact Sim.refl _
  exact hsim.eq

/-! ### Runs -/

section Skips

variable {w r : ℤ} {items : List NewOrderItem} {part : Option (List ℤ)}

theorem Tx.newOrderRemote_skips {c c' : Call F} (h : Tx.newOrderRemote w r items c = some (part, c')) :
    ∀ qs, part = some qs → List.Forall₂ (Skips r) items qs := by
  rintro qs rfl
  rw [newOrderRemote] at h
  obtain ⟨tuples, c₁, -, h⟩ := bind_eq_some h
  rcases tuples with _ | tuples
  · exact absurd (congrArg Prod.fst (Option.some.inj h)) (by simp)
  obtain ⟨_, c₂, -, h⟩ := bind_eq_some h
  obtain ⟨q, c₃, hloop, h⟩ := bind_eq_some h
  obtain ⟨heq, -⟩ := Prod.mk.inj (Option.some.inj h)
  obtain rfl := Option.some.inj heq
  have hall := Triple.mapM (f := updateStock (F := F) w r) (J := Skips r) (I := fun _ _ => True)
    (fun item l c _ q' c' hrun => ?_) items
  · exact (hall c₂ trivial q c₃ hloop).1
  · refine ⟨fun hw => ?_, trivial⟩
    rw [updateStock, if_pos hw] at hrun
    exact (Prod.mk.inj (Option.some.inj hrun)).1.symm

/-- What a committed transaction answers, it answers in a call. -/
theorem Tx.exists_of_commit {α : Type} {x : Tx F α} {free : Option HashOrder} {t t' : Tables F} {a : α}
    (h : x.commit free t = some (a, t')) : ∃ c c', x c = some (a, c') := by
  rcases free with _ | o
  · obtain ⟨⟨a', c'⟩, hx, heq⟩ := Option.map_eq_some_iff.mp h
    obtain ⟨rfl, -⟩ := Prod.mk.inj heq
    exact ⟨_, c', hx⟩
  · obtain ⟨⟨a', c'⟩, hx, h⟩ := Option.bind_eq_some_iff.mp h
    refine ⟨_, c', hx.trans ?_⟩
    dsimp only at h
    split at h
    · obtain ⟨rfl, -⟩ := Prod.mk.inj (Option.some.inj h)
      rfl
    · obtain ⟨_, -, heq⟩ := Option.map_eq_some_iff.mp h
      obtain ⟨rfl, -⟩ := Prod.mk.inj heq
      rfl

end Skips

section Runs

variable {ι : Type} [DecidableEq ι] [Money F] {site : ℤ → ι}

namespace Job

/-- **The parts of a job**, each at the instance of its warehouse, where the answers of the remote warehouses are
gathered. -/
def gathered (site : ℤ → ι) (how : Conduct F) (nestings : List Nesting) : Job F → Prog (ι → Tables F) (Reply F)
  | newOrder w d c items now => do
    let (result, output) ← newOrderGathered
      (onSite (site w) ((Tx.newOrderHome w d c items now .new).commit (how.free w)))
      (fun r => onSite (site r) ((Tx.newOrderRemote w r items).commit (how.free r))) nestings
    return .newOrder result output
  | j => j.atSites site how

/-- **The nestings gather the answers** of the remote warehouses of an order, in the order in which the set of
these is gone through. -/
def GatheredBy (how : Conduct F) (nestings : List Nesting) : Job F → Prop
  | newOrder w _ _ items _ =>
    nestings.flatMap Nesting.warehouses = how.order.iter _ (newOrderRemoteWarehouses w items)
  | _ => True

/-- **Gathered or not**, a job is the same at its sites. -/
theorem gathered_eq {j : Job F} {how : Conduct F} {nestings : List Nesting} (h : j.GatheredBy how nestings) :
    j.gathered site how nestings = j.atSites site how := by
  cases j with
  | newOrder w d c items now =>
    have hnd : (nestings.flatMap Nesting.warehouses).Nodup := by
      rw [show nestings.flatMap Nesting.warehouses = _ from h]
      exact (how.order.perm _ _).nodup_iff.mpr (newOrderRemoteWarehouses_spec w items).1
    have hremote : ∀ (r : ℤ) (c : ι → Tables F) (part : Option (List ℤ)) (c' : ι → Tables F),
        onSite (site r) ((Tx.newOrderRemote w r items).commit (how.free r)) c = some (part, c') →
          ∀ qs, part = some qs → List.Forall₂ (Skips r) items qs := by
      intro r c part c' hrun
      obtain ⟨⟨part', t'⟩, hcommit, heq⟩ := Option.map_eq_some_iff.mp hrun
      obtain ⟨rfl, -⟩ := Prod.mk.inj heq
      obtain ⟨call, call', hcall⟩ := Tx.exists_of_commit hcommit
      exact Tx.newOrderRemote_skips hcall
    rw [gathered, newOrderGathered_eq hremote hnd, atSites, distributedNewOrder,
      show nestings.flatMap Nesting.warehouses = _ from h]
  | payment w d cW cD c hAmount now => rfl
  | delivery w carrierId now => rfl

end Job

/-- **A run on several instances in which answers are gathered**, in whatever nestings, answers what a run on one
instance answers, and leaves the same rows: or both of them fail. -/
theorem gathered_run {c : ι → Tables F} {t : Tables F} (h : Deployed site c t)
    (calls : List (Job F × Conduct F × List Nesting × HashOrder × Option HashOrder))
    (hcalls : ∀ e ∈ calls, e.1.GatheredBy e.2.1 e.2.2.1) :
    Option.Rel (fun r r' => r.1 = r'.1 ∧ Deployed site r.2 r'.2)
      (runAll (fun e => e.1.gathered site e.2.1 e.2.2.1) calls c)
      (runAll (fun e => (e.1.txn e.2.2.2.1).reply.commit e.2.2.2.2) calls t) := by
  refine Sim.runAll (fun e he => ?_) c t h
  rw [Job.gathered_eq (hcalls e he)]
  exact e.1.sim e.2.1 e.2.2.2.1 e.2.2.2.2

end Runs

/-! ### Three warehouses -/

/-- Two warehouses, and the stock of a third one. -/
def tripleDatabase : List (Insertion ℚ) :=
  twinDatabase ++ [.stock ⟨1, 3, 50, 0, 0, 0, fun _ => .empty, .empty⟩]

theorem insertAll_tripleDatabase : (insertAll tripleDatabase Tables.empty).isSome := by decide +kernel

def tripleTables : Tables ℚ := ((insertAll tripleDatabase Tables.empty).get insertAll_tripleDatabase).2

theorem tripleTables_eq : insertAll tripleDatabase Tables.empty = some ((), tripleTables) := by
  rw [tripleTables, Prod.eta, Option.some_get]

theorem tripleTables_sound : tripleTables.Sound := (insertAll_onDb Tables.empty_sound tripleTables_eq).1

/-- An order that is supplied by two other warehouses, whose answers are gathered, and its delivery. -/
def tripleRun : List (Job ℚ × Conduct ℚ × List Nesting × HashOrder × Option HashOrder) :=
  [.newOrder 1 1 1 [⟨1, 1, 2⟩, ⟨1, 2, 3⟩, ⟨1, 3, 4⟩] (List.replicate 14 '0'),
    .delivery 1 3 (List.replicate 14 '0')].map fun j =>
      (j, ⟨.asInserted, fun _ => none, usedBuffer⟩, [.join (.part 2) (.part 3)], .asInserted, none)

theorem gathered_run_triple :
    ∃ replies c t, runAll (fun e => e.1.gathered id e.2.1 e.2.2.1) tripleRun (fun _ : ℤ => tripleTables) =
        some (replies, c) ∧
      runAll (fun e => (e.1.txn e.2.2.2.1).reply.commit e.2.2.2.2) tripleRun tripleTables = some (replies, t) ∧
      Deployed id c t := by
  have hrun : (runAll (fun e => (e.1.txn e.2.2.2.1).reply.commit e.2.2.2.2) tripleRun tripleTables).isSome := by
    decide +kernel
  obtain ⟨⟨replies, t⟩, ht⟩ := Option.isSome_iff_exists.mp hrun
  have hdep : Deployed id (fun _ : ℤ => tripleTables) tripleTables :=
    ⟨fun _ => tripleTables_sound, tripleTables_sound, tripleTables_sound.keyed.split⟩
  have hcalls : ∀ e ∈ tripleRun, e.1.GatheredBy e.2.1 e.2.2.1 := by
    intro e he
    rcases List.mem_map.mp he with ⟨j, hj, rfl⟩
    rcases List.mem_cons.mp hj with rfl | hj
    · exact (by decide : [2, 3] = newOrderRemoteWarehouses 1 [⟨1, 1, 2⟩, ⟨1, 2, 3⟩, ⟨1, 3, 4⟩])
    · obtain rfl := List.mem_singleton.mp hj
      trivial
  have hrel := gathered_run hdep tripleRun hcalls
  rw [ht] at hrel
  generalize hsites : runAll (fun e => e.1.gathered id e.2.1 e.2.2.1) tripleRun
    (fun _ : ℤ => tripleTables) = r at hrel
  cases hrel with
  | @some r _ h =>
    obtain ⟨replies', c⟩ := r
    obtain ⟨rfl, hc⟩ := h
    exact ⟨replies', c, t, rfl, ht, hc⟩

end TpccBench
