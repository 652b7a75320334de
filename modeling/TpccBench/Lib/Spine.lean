import Mathlib.Order.WithBot
import Mathlib.Data.List.Basic
import Mathlib.Tactic

/-!
# Children interleaved with separators

An inner node of a search tree holds its children with one separator between
each two of them. `TpccBench.Spine` is that shape – a first child, and for every
later one the separator on its left – so that the count of the separators and the
count of the children cannot disagree.

`TpccBench.Chain` threads a predicate with bounds through such a node: a child
lies between the two separators next to it, the outer two children between the
separator and the bound of the node. A descent by a key (`TpccBench.Spine.position`,
`TpccBench.Spine.child`) then finds a child whose bounds contain the key, and that
child may be replaced, or replaced by two, without looking at the rest of the node
(`TpccBench.Chain.route`).
-/

namespace TpccBench

/-- A node with children of type `C` interleaved with separators of type `K`. -/
structure Spine (K C : Type) where
  /-- The leftmost child. -/
  first : C
  /-- The separators, each with the child on its right. -/
  rest : List (K × C)

namespace Spine

variable {K C E : Type}

/-- The separators, from left to right. -/
def keys (n : Spine K C) : List K := n.rest.map Prod.fst

/-- The children, from left to right. -/
def children (n : Spine K C) : List C := n.first :: n.rest.map Prod.snd

/-- The child at an index; the last one where the index runs out of the node. -/
def childAt : C → List (K × C) → ℕ → C
  | c, _, 0 => c
  | c, [], _ + 1 => c
  | _, (_, c) :: rest, i + 1 => childAt c rest i

@[inherit_doc childAt]
def child (n : Spine K C) (i : ℕ) : C := childAt n.first n.rest i

/-- Put `x` in the place of the child at an index. -/
def setAt (x : C) : C → List (K × C) → ℕ → Spine K C
  | _, rest, 0 => ⟨x, rest⟩
  | c, [], _ + 1 => ⟨c, []⟩
  | c, (s, c') :: rest, i + 1 =>
    let n := setAt x c' rest i
    ⟨c, (s, n.first) :: n.rest⟩

@[inherit_doc setAt]
def setChild (n : Spine K C) (i : ℕ) (x : C) : Spine K C := setAt x n.first n.rest i

/-- Put `l`, a separator and `r` in the place of the child at an index. -/
def splitAt (l : C) (s : K) (r : C) : C → List (K × C) → ℕ → Spine K C
  | _, rest, 0 => ⟨l, (s, r) :: rest⟩
  | c, [], _ + 1 => ⟨c, []⟩
  | c, (s', c') :: rest, i + 1 =>
    let n := splitAt l s r c' rest i
    ⟨c, (s', n.first) :: n.rest⟩

@[inherit_doc splitAt]
def splitChild (n : Spine K C) (i : ℕ) (l : C) (s : K) (r : C) : Spine K C :=
  splitAt l s r n.first n.rest i

/-- What a node holds, in order, given what a child holds. -/
def flatten (f : C → List E) (c : C) (rest : List (K × C)) : List E :=
  f c ++ rest.flatMap fun e => f e.2

@[simp] theorem flatten_nil (f : C → List E) (c : C) :
    flatten f c ([] : List (K × C)) = f c := by
  simp [flatten]

@[simp] theorem flatten_cons (f : C → List E) (c : C) (s : K) (c' : C) (rest : List (K × C)) :
    flatten f c ((s, c') :: rest) = f c ++ flatten f c' rest := by
  simp [flatten]

/-- A node whose children hold so many holds so many times their number. -/
theorem le_length_flatten {f : C → List E} {b : ℕ} (c : C) (rest : List (K × C))
    (h : ∀ x ∈ c :: rest.map Prod.snd, b ≤ (f x).length) : (rest.length + 1) * b ≤ (flatten f c rest).length := by
  induction rest generalizing c with
  | nil =>
    rw [flatten_nil, List.length_nil, Nat.zero_add, Nat.one_mul]
    exact h c List.mem_cons_self
  | cons x rest ih =>
    have hrest := ih x.2 fun y hy => h y (List.mem_cons_of_mem _ hy)
    have hfirst := h c List.mem_cons_self
    rw [flatten_cons, List.length_append, List.length_cons, Nat.succ_mul]
    omega

theorem flatten_append (f : C → List E) (c : C) (l : List (K × C)) (s : K) (c' : C)
    (r : List (K × C)) : flatten f c (l ++ (s, c') :: r) = flatten f c l ++ flatten f c' r := by
  simp [flatten, List.append_assoc]

theorem mem_flatten_of_childAt {f : C → List E} {e : E} (c : C) (rest : List (K × C)) (i : ℕ)
    (h : e ∈ f (childAt c rest i)) : e ∈ flatten f c rest := by
  induction rest generalizing c i with
  | nil => cases i <;> simpa [childAt] using h
  | cons x rest ih =>
    obtain ⟨s, c'⟩ := x
    rw [flatten_cons, List.mem_append]
    cases i with
    | zero => exact Or.inl h
    | succ i => exact Or.inr (ih c' i h)

@[simp] theorem length_setAt (x : C) (c : C) (rest : List (K × C)) (i : ℕ) :
    (setAt x c rest i).rest.length = rest.length := by
  induction rest generalizing c i with
  | nil => cases i <;> rfl
  | cons e rest ih =>
    cases i with
    | zero => rfl
    | succ i => simp [setAt, ih]

theorem length_splitAt (l : C) (s : K) (r : C) (c : C) (rest : List (K × C)) (i : ℕ)
    (hi : i ≤ rest.length) : (splitAt l s r c rest i).rest.length = rest.length + 1 := by
  induction rest generalizing c i with
  | nil =>
    obtain rfl : i = 0 := by simpa using hi
    rfl
  | cons e rest ih =>
    cases i with
    | zero => rfl
    | succ i => simp [splitAt, ih e.2 i (by simpa using hi)]

section Position

variable [LinearOrder K]

/-- The number of leading separators that are not above the key: the index of the
child the key belongs to. -/
def position (key : K) : List (K × C) → ℕ
  | [] => 0
  | (s, _) :: rest => if s < key ∨ s = key then position key rest + 1 else 0

/-- The index of the child that holds what lies just below the key: one step back
from `TpccBench.Spine.position` where the key is itself a separator. -/
def positionBelow (key : K) (rest : List (K × C)) : ℕ :=
  let pos := position key rest
  if 0 < pos ∧ (rest.map Prod.fst)[pos - 1]? = some key then pos - 1 else pos

theorem position_le (key : K) (rest : List (K × C)) : position key rest ≤ rest.length := by
  induction rest with
  | nil => exact Nat.le_refl 0
  | cons e rest ih =>
    obtain ⟨s, c⟩ := e
    rw [position]
    split
    · simpa using ih
    · exact Nat.zero_le _

/-- Cutting a node at a separator above the key leaves the child of the key on the
left. -/
theorem child_cut_left {key s : K} (hs : key < s) (c : C) (l : List (K × C)) (x : C)
    (r : List (K × C)) :
    childAt c (l ++ (s, x) :: r) (position key (l ++ (s, x) :: r)) =
      childAt c l (position key l) := by
  induction l generalizing c with
  | nil =>
    have hpos : position key ((s, x) :: r) = 0 :=
      if_neg (by rintro (h | h); exacts [lt_asymm h hs, ne_of_gt hs h])
    rw [List.nil_append, hpos]
    rfl
  | cons e l ih =>
    rw [List.cons_append, position, position]
    split
    · exact ih e.2
    · rfl

/-- Cutting a node at a separator that is not above the key leaves the child of the key
on the right. -/
theorem child_cut_right {key s : K} (hs : s ≤ key) (c : C) (l : List (K × C)) (x : C)
    (r : List (K × C)) (hl : ∀ e ∈ l, e.1 ≤ key) :
    childAt c (l ++ (s, x) :: r) (position key (l ++ (s, x) :: r)) =
      childAt x r (position key r) := by
  induction l generalizing c with
  | nil => rw [List.nil_append, position, if_pos (lt_or_eq_of_le hs), childAt]
  | cons e l ih =>
    rw [List.cons_append, position, if_pos (lt_or_eq_of_le (hl e List.mem_cons_self)), childAt]
    exact ih e.2 fun e he => hl e (List.mem_cons_of_mem _ he)

/-- When the separators increase, going back over an equal separator counts the
separators strictly below the key. -/
theorem positionBelow_cons (key : K) (s : K) (c : C) (rest : List (K × C))
    (hs : ∀ e ∈ rest.head?, s < e.1) :
    positionBelow key ((s, c) :: rest) = if s < key then positionBelow key rest + 1 else 0 := by
  have hzero : s = key → position key rest = 0 := by
    rintro rfl
    cases rest with
    | nil => rfl
    | cons e rest =>
      have hlt : s < e.1 := hs e rfl
      rw [position, if_neg (by rintro (h | h); exacts [lt_asymm h hlt, ne_of_gt hlt h])]
  simp only [positionBelow, position, List.map_cons]
  rcases lt_trichotomy s key with hlt | heq | hgt
  · rw [if_pos (Or.inl hlt), if_pos hlt]
    rcases Nat.eq_zero_or_pos (position key rest) with h0 | hpos
    · simp [h0, ne_of_lt hlt]
    · obtain ⟨p, hp⟩ : ∃ p, position key rest = p + 1 := ⟨_, (Nat.sub_add_cancel hpos).symm⟩
      simp only [hp, Nat.add_sub_cancel, List.getElem?_cons_succ, Nat.succ_pos, true_and]
      split <;> rfl
  · have hpos : (if s < key ∨ s = key then position key rest + 1 else 0) = 1 := by
      rw [if_pos (Or.inr heq), hzero heq]
    have hs' : ¬s < key := by rw [heq]; exact lt_irrefl key
    rw [hpos, if_neg hs']
    simp [heq]
  · have hpos : (if s < key ∨ s = key then position key rest + 1 else 0) = 0 :=
      if_neg (by rintro (h | h); exacts [lt_asymm h hgt, ne_of_gt hgt h])
    rw [hpos, if_neg (not_lt_of_gt hgt)]
    simp

end Position

end Spine

open Spine

variable {K C E : Type}

/-- **Bounds along a node**: `P lo c hi` of the first child, then of every other
child between the separators next to it. -/
def Chain (P : WithBot K → C → WithTop K → Prop) :
    WithBot K → C → List (K × C) → WithTop K → Prop
  | lo, c, [], hi => P lo c hi
  | lo, c, (s, c') :: rest, hi => P lo c (s : WithTop K) ∧ Chain P (s : WithBot K) c' rest hi

namespace Chain

variable {P Q : WithBot K → C → WithTop K → Prop} {lo : WithBot K} {hi : WithTop K}

/-- A chain is cut at any of its separators. -/
theorem append {c : C} {l : List (K × C)} {s : K} {x : C} {r : List (K × C)} :
    Chain P lo c (l ++ (s, x) :: r) hi ↔ Chain P lo c l (s : WithTop K) ∧ Chain P s x r hi := by
  induction l generalizing lo c with
  | nil => exact Iff.rfl
  | cons e l ih => rw [List.cons_append, Chain, Chain, ih, and_assoc]

/-- Every child of a chain has its bounds. -/
theorem of_mem {c x : C} {rest : List (K × C)} (h : Chain P lo c rest hi)
    (hx : x ∈ c :: rest.map Prod.snd) : ∃ a b, P a x b := by
  induction rest generalizing lo c with
  | nil =>
    obtain rfl := List.mem_singleton.mp hx
    exact ⟨lo, hi, h⟩
  | cons e rest ih =>
    rcases List.mem_cons.mp hx with rfl | hx
    · exact ⟨lo, _, h.1⟩
    · exact ih h.2 hx

/-- The first child of a chain has its lower bound. -/
theorem first {c : C} {rest : List (K × C)} (h : Chain P lo c rest hi) : ∃ b, P lo c b := by
  cases rest with
  | nil => exact ⟨_, h⟩
  | cons e rest => exact ⟨_, h.1⟩

variable [LinearOrder K]

/-- The key lies between the bounds, the lower one included. -/
def Within (lo : WithBot K) (hi : WithTop K) (k : K) : Prop :=
  lo ≤ (k : WithBot K) ∧ (k : WithTop K) < hi

/-- A predicate with bounds **separates**: a child that has a lower bound reaches
above it. -/
def Separates (P : WithBot K → C → WithTop K → Prop) : Prop :=
  ∀ (s : K) c (b : WithTop K), P s c b → (s : WithTop K) < b

/-- The entries of a child have their keys between its bounds. -/
def Bounded (P : WithBot K → C → WithTop K → Prop) (key : E → K) (f : C → List E) : Prop :=
  ∀ a c b, P a c b → ∀ e ∈ f c, Within a b (key e)

theorem lt_of_separates (hP : Separates P) {s : K} {c : C} {rest : List (K × C)}
    (h : Chain P s c rest hi) : (s : WithTop K) < hi := by
  induction rest generalizing s c with
  | nil => exact hP _ _ _ h
  | cons e rest ih => exact lt_trans (hP _ _ _ h.1) (ih h.2)

theorem le_of_separates (hP : Separates P) {c : C} {s : K} (h : P lo c (s : WithTop K)) :
    lo ≤ (s : WithBot K) := by
  cases lo with
  | bot => exact bot_le
  | coe a => exact WithBot.coe_le_coe.mpr (le_of_lt (WithTop.coe_lt_coe.mp (hP _ _ _ h)))

/-- The first separator of a chain is above its lower bound. -/
theorem head_lt (hP : Separates P) {s : K} {c : C} {rest : List (K × C)}
    (h : Chain P s c rest hi) : ∀ e ∈ rest.head?, s < e.1 := by
  intro e he
  cases rest with
  | nil => simp at he
  | cons x rest =>
    obtain rfl : x = e := by simpa using he
    exact WithTop.coe_lt_coe.mp (hP _ _ _ h.1)

/-- All separators of a chain are above its lower bound. -/
theorem lt_keys (hP : Separates P) {s : K} {c : C} {rest : List (K × C)}
    (h : Chain P s c rest hi) : ∀ e ∈ rest, s < e.1 := by
  induction rest generalizing s c with
  | nil => simp
  | cons x rest ih =>
    have hx : s < x.1 := WithTop.coe_lt_coe.mp (hP _ _ _ h.1)
    intro e he
    rcases List.mem_cons.mp he with rfl | he
    · exact hx
    · exact lt_trans hx (ih h.2 e he)

/-- The separators of a chain increase. -/
theorem pairwise (hP : Separates P) {c : C} {rest : List (K × C)} (h : Chain P lo c rest hi) :
    rest.Pairwise fun e e' => e.1 < e'.1 := by
  induction rest generalizing lo c with
  | nil => exact List.Pairwise.nil
  | cons x rest ih => exact List.pairwise_cons.mpr ⟨lt_keys hP h.2, ih h.2⟩

/-- The separators of a chain are below its upper bound. -/
theorem keys_lt (hP : Separates P) {c : C} {rest : List (K × C)} (h : Chain P lo c rest hi) :
    ∀ e ∈ rest, (e.1 : WithTop K) < hi := by
  induction rest generalizing lo c with
  | nil => simp
  | cons x rest ih =>
    intro e he
    rcases List.mem_cons.mp he with rfl | he
    · exact lt_of_separates hP h.2
    · exact ih h.2 e he

/-- The entries of a chain lie between its bounds. -/
theorem within {key : E → K} {f : C → List E} (hP : Separates P) (hb : Bounded P key f)
    {c : C} {rest : List (K × C)} (h : Chain P lo c rest hi) :
    ∀ e ∈ flatten f c rest, Within lo hi (key e) := by
  induction rest generalizing lo c with
  | nil =>
    intro e he
    exact hb _ _ _ h e (by simpa using he)
  | cons x rest ih =>
    intro e he
    rw [flatten_cons, List.mem_append] at he
    rcases he with he | he
    · obtain ⟨h₁, h₂⟩ := hb _ _ _ h.1 e he
      exact ⟨h₁, lt_trans h₂ (lt_of_separates hP h.2)⟩
    · obtain ⟨h₁, h₂⟩ := ih h.2 e he
      exact ⟨le_trans (le_of_separates hP h.1) h₁, h₂⟩

/-- **Where a key belongs**: the child at index `i`, its bounds `a` and `b`, what the
node holds on its left and on its right, and what becomes of the node when the
child is replaced, by one child or by two. -/
structure Route (P : WithBot K → C → WithTop K → Prop) (f : C → List E)
    (lo : WithBot K) (c : C) (rest : List (K × C)) (hi : WithTop K) (i : ℕ)
    (a : WithBot K) (b : WithTop K) (pre post : List E) : Prop where
  /-- The child lies between its bounds. -/
  child : P a (childAt c rest i) b
  /-- What the node holds. -/
  holds : flatten f c rest = pre ++ f (childAt c rest i) ++ post
  /-- The child may be replaced. -/
  set : ∀ x, P a x b → Chain P lo (setAt x c rest i).first (setAt x c rest i).rest hi
  /-- What the node then holds. -/
  holds_set : ∀ x, flatten f (setAt x c rest i).first (setAt x c rest i).rest =
    pre ++ f x ++ post
  /-- The child may be split in two. -/
  split : ∀ l (s : K) r, P a l (s : WithTop K) → P (s : WithBot K) r b →
    Chain P lo (splitAt l s r c rest i).first (splitAt l s r c rest i).rest hi
  /-- What the node then holds. -/
  holds_split : ∀ l (s : K) r, flatten f (splitAt l s r c rest i).first (splitAt l s r c rest i).rest =
    pre ++ (f l ++ f r) ++ post

omit [LinearOrder K] in
/-- The route of a node whose first child is the one. -/
theorem Route.first {f : C → List E} {c s' : C} {rest : List (K × C)} {s : K}
    (h : Chain P lo c ((s, s') :: rest) hi) :
    Route P f lo c ((s, s') :: rest) hi 0 lo s [] (flatten f s' rest) where
  child := h.1
  holds := by simp [childAt]
  set x hx := ⟨hx, h.2⟩
  holds_set x := by simp [setAt]
  split l t r hl hr := ⟨hl, hr, h.2⟩
  holds_split l t r := by simp [splitAt]

omit [LinearOrder K] in
/-- The route of a node without separators. -/
theorem Route.only {f : C → List E} {c : C} (h : P lo c hi) :
    Route P f lo c ([] : List (K × C)) hi 0 lo hi [] [] where
  child := h
  holds := by simp [childAt]
  set x hx := hx
  holds_set x := by simp [setAt]
  split l t r hl hr := ⟨hl, hr⟩
  holds_split l t r := by simp [splitAt]

omit [LinearOrder K] in
/-- The route of a node from the route of what follows its first child. -/
theorem Route.next {f : C → List E} {c s' : C} {rest : List (K × C)} {s : K} {i : ℕ}
    {a : WithBot K} {b : WithTop K} {pre post : List E} (hc : P lo c (s : WithTop K))
    (h : Route P f s s' rest hi i a b pre post) :
    Route P f lo c ((s, s') :: rest) hi (i + 1) a b (f c ++ pre) post where
  child := h.child
  holds := by simp [childAt, h.holds]
  set x hx := ⟨hc, h.set x hx⟩
  holds_set x := by simp [setAt, h.holds_set x]
  split l t r hl hr := ⟨hc, h.split l t r hl hr⟩
  holds_split l t r := by simp [splitAt, h.holds_split l t r]

/-- **Descending by a key** reaches a child whose bounds contain it; what is on the
left of that child lies below the key, and what is on its right above. -/
theorem route {key : E → K} {f : C → List E} (hP : Separates P) (hb : Bounded P key f) {k : K}
    {c : C} {rest : List (K × C)} (h : Chain P lo c rest hi) (hk : Within lo hi k) :
    ∃ a b pre post, Route P f lo c rest hi (position k rest) a b pre post ∧ Within a b k ∧
      (∀ e ∈ pre, key e < k) ∧ ∀ e ∈ post, k < key e := by
  induction rest generalizing lo c with
  | nil => exact ⟨lo, hi, [], [], Route.only h, hk, by simp, by simp⟩
  | cons x rest ih =>
    obtain ⟨s, c'⟩ := x
    rw [position]
    split
    · next hs =>
      have hsk : s ≤ k := hs.elim le_of_lt le_of_eq
      obtain ⟨a, b, pre, post, hr, hab, hpre, hpost⟩ :=
        ih h.2 ⟨WithBot.coe_le_coe.mpr hsk, hk.2⟩
      refine ⟨a, b, f c ++ pre, post, hr.next h.1, hab, fun e he => ?_, hpost⟩
      rcases List.mem_append.mp he with he | he
      · exact lt_of_lt_of_le (WithTop.coe_lt_coe.mp (hb _ _ _ h.1 e he).2) hsk
      · exact hpre e he
    · next hs =>
      have hks : k < s := lt_of_le_of_ne (not_lt.mp fun hc => hs (Or.inl hc))
        fun hc => hs (Or.inr hc.symm)
      refine ⟨lo, s, [], flatten f c' rest, Route.first h,
        ⟨hk.1, WithTop.coe_lt_coe.mpr hks⟩, by simp, fun e he => ?_⟩
      exact lt_of_lt_of_le hks (WithBot.coe_le_coe.mp (within hP hb h.2 e he).1)

/-- **Descending below a key** reaches a child whose right neighbours hold nothing
below the key, and which has itself a lower bound below the key unless nothing is on
its left; the separator next to it on the left is below the key. -/
theorem route_below {key : E → K} {f : C → List E} (hP : Separates P) (hb : Bounded P key f)
    {k : K} {c : C} {rest : List (K × C)} (h : Chain P lo c rest hi) :
    ∃ a b pre post, Route P f lo c rest hi (positionBelow k rest) a b pre post ∧
      (pre = [] ∧ a = lo ∨ ∃ s : K, a = s ∧ s < k) ∧ (∀ e ∈ post, k ≤ key e) ∧
      ∀ p, positionBelow k rest = p + 1 → ∃ s, (rest.map Prod.fst)[p]? = some s ∧ s < k := by
  induction rest generalizing lo c with
  | nil =>
    refine ⟨lo, hi, [], [], Route.only h, Or.inl ⟨rfl, rfl⟩, by simp, fun p hp => ?_⟩
    simp [positionBelow, position] at hp
  | cons x rest ih =>
    obtain ⟨s, c'⟩ := x
    rw [positionBelow_cons k s c' rest (head_lt hP h.2)]
    split
    · next hs =>
      obtain ⟨a, b, pre, post, hr, ha, hpost, hkeys⟩ := ih h.2
      refine ⟨a, b, f c ++ pre, post, hr.next h.1, Or.inr ?_, hpost, fun p hp => ?_⟩
      · rcases ha with ⟨-, rfl⟩ | ha
        · exact ⟨s, rfl, hs⟩
        · exact ha
      · obtain rfl : positionBelow k rest = p := by simpa using hp
        cases hq : positionBelow k rest with
        | zero => exact ⟨s, by simp, hs⟩
        | succ q => simpa using hkeys q hq
    · next hs =>
      refine ⟨lo, s, [], flatten f c' rest, Route.first h, Or.inl ⟨rfl, rfl⟩, fun e he => ?_,
        by simp⟩
      exact le_trans (not_lt.mp hs) (WithBot.coe_le_coe.mp (within hP hb h.2 e he).1)

end Chain

end TpccBench
