import Wdl.Build.Grouping

/-!
# Wdl.Proofs.Grouping -- a chain has one grouping

A chain of operands and operators is the frontier of a binary tree. `Tree.Grouped` says that such a
tree nests its operators by precedence, from the left. A chain is the frontier of exactly one
grouped tree; nesting it level by level and nesting it operator by operator both give that tree, for
any way to combine two operands.

* `Tree.first` and `Tree.rest` are the frontier, `Tree.strength` the precedence of the root,
  `Tree.fold` the combination of the operands along a tree.
* `Tree.Grouped.unique`: two grouped trees with one frontier are the same, because the root is the
  last of the loosest operators (`split_unique`).
* `Nests ls t first rest` says what nesting the levels `ls` of a chain comes to; `layers_nests` has
  it for the trees that `layers` builds, and `treeOf` is the tree of all levels.
* `Waiting operands operators` is the invariant of the two stacks. `waitingLinks` and `waitingFirst`
  give the chain that waits on them, so that each step can be said to keep it or to extend it by one
  link.
* `layered_eq_fold` and `climb_eq_fold` are the results: either way to nest combines along `treeOf`.
-/

namespace Wdl.Grouping

variable {α β : Type}

/-! ## Trees and their frontiers

Nesting is studied for trees first, where `Tree.node` combines and nothing is lost. A function that
carries one way to combine into another carries the results over (`Tree.fold_map`), so what holds of
trees holds of every other way to combine. -/

/-- A nested chain. -/
inductive Tree (α : Type) where
  | leaf (x : α)
  | node (op : BinaryOp) (left right : Tree α)

namespace Tree

/-- The first operand of a tree. -/
def first : Tree α → α
  | .leaf x => x
  | .node _ left _ => left.first

/-- The operators of a tree in order, each with the operand behind it. -/
def rest : Tree α → List (BinaryOp × α)
  | .leaf _ => []
  | .node op left right => left.rest ++ (op, right.first) :: right.rest

/-- How strongly a tree holds together: as its root operator does, an operand more than any. -/
def strength : Tree α → Nat
  | .leaf _ => 7
  | .node op _ _ => op.precedence

/-- What is left of an operator binds at least as tightly, what is right of it more tightly. -/
def Grouped : Tree α → Prop
  | .leaf _ => True
  | .node op left right =>
    op.precedence ≤ left.strength ∧ op.precedence < right.strength ∧ left.Grouped ∧ right.Grouped

/-- Combines the operands of a tree as it nests them. -/
def fold (combine : BinaryOp → α → α → α) : Tree α → α
  | .leaf x => x
  | .node op left right => combine op (left.fold combine) (right.fold combine)

/-- A tree with other operands. -/
def map (f : α → β) : Tree α → Tree β
  | .leaf x => .leaf (f x)
  | .node op left right => .node op (left.map f) (right.map f)

@[simp] theorem first_leaf (x : α) : (leaf x).first = x := rfl

@[simp] theorem rest_leaf (x : α) : (leaf x).rest = [] := rfl

@[simp] theorem first_node (op : BinaryOp) (l r : Tree α) : (node op l r).first = l.first := rfl

@[simp] theorem rest_node (op : BinaryOp) (l r : Tree α) :
    (node op l r).rest = l.rest ++ (op, r.first) :: r.rest := rfl

@[simp] theorem first_map (f : α → β) (t : Tree α) : (t.map f).first = f t.first := by
  induction t with
  | leaf x => rfl
  | node op l r ihl _ => exact ihl

@[simp] theorem rest_map (f : α → β) (t : Tree α) :
    (t.map f).rest = t.rest.map fun link => (link.1, f link.2) := by
  induction t with
  | leaf x => rfl
  | node op l r ihl ihr => simp [map, ihl, ihr]

@[simp] theorem strength_map (f : α → β) (t : Tree α) : (t.map f).strength = t.strength := by
  cases t <;> rfl

theorem Grouped.map {t : Tree α} (h : t.Grouped) (f : α → β) : (t.map f).Grouped := by
  induction t with
  | leaf x => trivial
  | node op l r ihl ihr =>
    obtain ⟨hl, hr, gl, gr⟩ := h
    exact ⟨by simpa using hl, by simpa using hr, ihl gl, ihr gr⟩

/-- A map that carries one way to combine into another carries the combined values too. -/
theorem fold_map {c : BinaryOp → α → α → α} {d : BinaryOp → β → β → β} {f : α → β}
    (h : ∀ op x y, f (c op x y) = d op (f x) (f y)) (t : Tree α) :
    f (t.fold c) = (t.map f).fold d := by
  induction t with
  | leaf x => rfl
  | node op l r ihl ihr => simp [fold, map, h, ihl, ihr]

/-- What combining two operands keeps holds of all operands combined. -/
theorem fold_induction {c : BinaryOp → α → α → α} {P : α → Prop}
    (combined : ∀ op x y, P x → P y → P (c op x y)) {t : Tree α} (hfirst : P t.first)
    (hrest : ∀ link ∈ t.rest, P link.2) : P (t.fold c) := by
  induction t with
  | leaf x => exact hfirst
  | node op l r ihl ihr =>
    have left := ihl hfirst fun link hl => hrest link (by simp [hl])
    have right := ihr (hrest (op, r.first) (by simp)) fun link hr => hrest link (by simp [hr])
    exact combined op _ _ left right

/-- The operators of a grouped tree bind at least as tightly as the tree. -/
theorem Grouped.strength_le {t : Tree α} (h : t.Grouped) :
    ∀ link ∈ t.rest, t.strength ≤ link.1.precedence := by
  induction t with
  | leaf x => simp
  | node op l r ihl ihr =>
    obtain ⟨hl, hr, gl, gr⟩ := h
    intro link hlink
    simp only [rest_node, List.mem_append, List.mem_cons] at hlink
    rcases hlink with hlink | rfl | hlink
    · exact Nat.le_trans hl (ihl gl link hlink)
    · exact Nat.le_refl _
    · exact Nat.le_trans (Nat.le_of_lt hr) (ihr gr link hlink)

end Tree

/-! ## Uniqueness

Two frontiers that are equal as lists are cut at their roots. Both roots are the last among the
loosest operators, hence at the same place, and the induction goes on to either side. -/

/-- A list is cut in one way only at the last of its entries of least weight. -/
theorem split_unique {w : α → Nat} {as bs as' bs' : List α} {a a' : α}
    (eq : as ++ a :: bs = as' ++ a' :: bs')
    (has : ∀ x ∈ as, w a ≤ w x) (hbs : ∀ x ∈ bs, w a < w x)
    (has' : ∀ x ∈ as', w a' ≤ w x) (hbs' : ∀ x ∈ bs', w a' < w x) :
    as = as' ∧ a = a' ∧ bs = bs' := by
  rw [List.append_eq_append_iff] at eq
  rcases eq with ⟨cs, rfl, eq⟩ | ⟨cs, rfl, eq⟩
  · cases cs with
    | nil => simp_all
    | cons c cs =>
      obtain ⟨rfl, rfl⟩ : a = c ∧ bs = cs ++ a' :: bs' := by simpa using eq
      have h1 := hbs a' (by simp)
      have h2 := has' a (by simp)
      omega
  · cases cs with
    | nil => simp_all
    | cons c cs =>
      obtain ⟨rfl, rfl⟩ : a' = c ∧ bs' = cs ++ a :: bs := by simpa using eq
      have h1 := hbs' a (by simp)
      have h2 := has a' (by simp)
      omega

/-- A chain is the frontier of one grouped tree only: the root is the last of the loosest
operators, and so on down. -/
theorem Tree.Grouped.unique {s t : Tree α} (hs : s.Grouped) (ht : t.Grouped)
    (first : s.first = t.first) (rest : s.rest = t.rest) : s = t := by
  induction s generalizing t with
  | leaf x =>
    cases t with
    | leaf y => exact congrArg leaf first
    | node op l r => simp at rest
  | node op l r ihl ihr =>
    cases t with
    | leaf y => simp at rest
    | node op' l' r' =>
      obtain ⟨hl, hr, gl, gr⟩ := hs
      obtain ⟨hl', hr', gl', gr'⟩ := ht
      obtain ⟨restl, mid, restr⟩ := split_unique (w := fun link => link.1.precedence) rest
        (fun x hx => Nat.le_trans hl (gl.strength_le x hx))
        (fun x hx => Nat.lt_of_lt_of_le hr (gr.strength_le x hx))
        (fun x hx => Nat.le_trans hl' (gl'.strength_le x hx))
        (fun x hx => Nat.lt_of_lt_of_le hr' (gr'.strength_le x hx))
      obtain ⟨rfl, firstr⟩ : op = op' ∧ r.first = r'.first := by simpa using mid
      rw [ihl gl gl' first restl, ihr gr gr' firstr restr]

/-! ## Level by level

A chain is cut at all operators of the loosest level. Each piece nests by the tighter levels, and
the pieces are joined from the left. -/

/-- The links of a chain with its operands as trees. -/
def leaves (rest : List (BinaryOp × α)) : List (BinaryOp × Tree α) :=
  rest.map fun link => (link.1, .leaf link.2)

/-- Where a chain is cut does not depend on its operands. -/
theorem cut_map (f : α → β) (level : Nat) (rest : List (BinaryOp × α)) :
    cut level (rest.map fun link => (link.1, f link.2)) =
      ((cut level rest).1.map (fun link => (link.1, f link.2)),
       (cut level rest).2.map fun piece =>
         (piece.1, f piece.2.1, piece.2.2.map fun link => (link.1, f link.2))) := by
  induction rest with
  | nil => rfl
  | cons link rest ih =>
    simp only [List.map_cons, cut, ih]
    split <;> rfl

/-- The pieces of a cut chain, one behind the other, are the chain. -/
theorem cut_append (level : Nat) (rest : List (BinaryOp × α)) :
    (cut level rest).1 ++
      (cut level rest).2.flatMap (fun piece => (piece.1, piece.2.1) :: piece.2.2) = rest := by
  induction rest with
  | nil => rfl
  | cons link rest ih =>
    simp only [cut]
    split
    · simpa using ih
    · simpa using ih

/-- A chain is cut at all operators of the level and at no other. -/
theorem cut_precedence (level : Nat) (rest : List (BinaryOp × α)) :
    (∀ link ∈ (cut level rest).1, link.1.precedence ≠ level) ∧
      ∀ piece ∈ (cut level rest).2, piece.1.precedence = level ∧
        ∀ link ∈ piece.2.2, link.1.precedence ≠ level := by
  induction rest with
  | nil => simp [cut]
  | cons link rest ih =>
    obtain ⟨own, more⟩ := ih
    simp only [cut]
    split
    · rename_i at_level
      refine ⟨by simp, ?_⟩
      intro piece hpiece
      rcases List.mem_cons.1 hpiece with rfl | hpiece
      · exact ⟨at_level, own⟩
      · exact more piece hpiece
    · rename_i off_level
      refine ⟨?_, more⟩
      intro x hx
      rcases List.mem_cons.1 hx with rfl | hx
      · exact off_level
      · exact own x hx

/-- A map that carries one way to combine into another carries what is nested level by level. -/
theorem layers_map {c : BinaryOp → α → α → α} {d : BinaryOp → β → β → β} {f : α → β}
    (h : ∀ op x y, f (c op x y) = d op (f x) (f y)) (ls : List Nat) (first : α)
    (rest : List (BinaryOp × α)) :
    f (layers c ls first rest) =
      layers d ls (f first) (rest.map fun link => (link.1, f link.2)) := by
  induction ls generalizing first rest with
  | nil => rfl
  | cons level tighter ih =>
    rw [layers, layers, cut_map]
    simp only [List.foldl_map, ← ih]
    exact (List.foldl_hom f fun left piece => by rw [h, ih]).symm

/-- What the levels of a cut chain nest to: a grouped tree over the chain, whose root is an operator
of one of the levels. -/
structure Nests (ls : List Nat) (t : Tree α) (first : α) (rest : List (BinaryOp × α)) : Prop where
  grouped : t.Grouped
  first_eq : t.first = first
  rest_eq : t.rest = rest
  strength : t.strength = 7 ∨ t.strength ∈ ls

/-- Pieces that nest to trees of tighter levels are joined one by one, each on the right of what is
joined so far. -/
theorem foldl_nests {level : Nat} {tighter : List Nat} (above : ∀ k ∈ tighter, level < k)
    (low : level < 7) (right : α → List (BinaryOp × α) → Tree α) {first : α}
    (more : List (BinaryOp × α × List (BinaryOp × α)))
    (pieces : ∀ piece ∈ more, piece.1.precedence = level ∧
      Nests tighter (right piece.2.1 piece.2.2) piece.2.1 piece.2.2) {t : Tree α}
    {done : List (BinaryOp × α)} (nests : Nests (level :: tighter) t first done)
    (tight : level ≤ t.strength) :
    Nests (level :: tighter)
      (more.foldl (fun left piece => .node piece.1 left (right piece.2.1 piece.2.2)) t) first
      (done ++ more.flatMap fun piece => (piece.1, piece.2.1) :: piece.2.2) := by
  induction more generalizing t done with
  | nil => simpa using nests
  | cons piece more ih =>
    obtain ⟨at_level, inner⟩ := pieces piece (by simp)
    have looser : piece.1.precedence < (right piece.2.1 piece.2.2).strength := by
      rw [at_level]
      rcases inner.strength with eq | mem
      · rwa [eq]
      · exact above _ mem
    have joined : Nests (level :: tighter) (.node piece.1 t (right piece.2.1 piece.2.2)) first
        (done ++ (piece.1, piece.2.1) :: piece.2.2) :=
      { grouped := ⟨by rw [at_level]; exact tight, looser, nests.grouped, inner.grouped⟩
        first_eq := nests.first_eq
        rest_eq := by rw [Tree.rest_node, nests.rest_eq, inner.first_eq, inner.rest_eq]
        strength := .inr (by simp [Tree.strength, at_level]) }
    have next := ih (fun p hp => pieces p (List.mem_cons_of_mem _ hp)) joined
      (Nat.le_of_eq at_level.symm)
    simpa [List.flatMap_cons] using next

/-- Nesting by levels in ascending order gives a grouped tree over the chain, if the levels cover
its operators. -/
theorem layers_nests (ls : List Nat) (sorted : ls.Pairwise (· < ·)) (below : ∀ k ∈ ls, k < 7)
    (first : α) (rest : List (BinaryOp × α)) (covered : ∀ link ∈ rest, link.1.precedence ∈ ls) :
    Nests ls (layers .node ls (.leaf first) (leaves rest)) first rest := by
  induction ls generalizing first rest with
  | nil =>
    cases rest with
    | nil => exact ⟨trivial, rfl, rfl, .inl rfl⟩
    | cons link rest => simpa using covered link (by simp)
  | cons level tighter ih =>
    obtain ⟨above, sorted⟩ := List.pairwise_cons.1 sorted
    have low := below level (by simp)
    have below' : ∀ k ∈ tighter, k < 7 := fun k hk => below k (List.mem_cons_of_mem _ hk)
    have joined := cut_append level rest
    obtain ⟨own_off, more_off⟩ := cut_precedence level rest
    have tighten : ∀ link ∈ rest, link.1.precedence ≠ level → link.1.precedence ∈ tighter :=
      fun link hlink off => (List.mem_cons.1 (covered link hlink)).resolve_left off
    -- each of the pieces, the first included, nests by the tighter levels alone
    have head := ih sorted below' first (cut level rest).1 fun link hlink =>
      tighten link (by rw [← joined]; exact List.mem_append_left _ hlink) (own_off link hlink)
    have pieces : ∀ piece ∈ (cut level rest).2, piece.1.precedence = level ∧
        Nests tighter (layers .node tighter (.leaf piece.2.1) (leaves piece.2.2)) piece.2.1
          piece.2.2 := by
      intro piece hpiece
      obtain ⟨at_level, off⟩ := more_off piece hpiece
      refine ⟨at_level, ih sorted below' piece.2.1 piece.2.2 fun link hlink => ?_⟩
      refine tighten link ?_ (off link hlink)
      rw [← joined]
      exact List.mem_append_right _ (List.mem_flatMap.2 ⟨piece, hpiece, by simp [hlink]⟩)
    have tight : level ≤
        (layers .node tighter (.leaf first) (leaves (cut level rest).1)).strength := by
      rcases head.strength with eq | mem
      · rw [eq]
        exact Nat.le_of_lt low
      · exact Nat.le_of_lt (above _ mem)
    have all := foldl_nests above low
      (fun first rest => layers .node tighter (.leaf first) (leaves rest)) (cut level rest).2 pieces
      ⟨head.grouped, head.first_eq, head.rest_eq, head.strength.imp_right (List.mem_cons_of_mem _)⟩
      tight
    rw [joined] at all
    rw [layers, leaves, cut_map]
    simp only [List.foldl_map]
    exact all

theorem precedence_mem_levels (op : BinaryOp) : op.precedence ∈ levels := by
  cases op <;> decide

/-- The grouped tree of a chain. -/
def treeOf (first : α) (rest : List (BinaryOp × α)) : Tree α :=
  layered .node (.leaf first) (leaves rest)

/-- The levels cover all operators. -/
theorem treeOf_nests (first : α) (rest : List (BinaryOp × α)) :
    Nests levels (treeOf first rest) first rest :=
  layers_nests levels (by decide) (by decide) first rest fun link _ => precedence_mem_levels link.1

theorem treeOf_grouped (first : α) (rest : List (BinaryOp × α)) : (treeOf first rest).Grouped :=
  (treeOf_nests first rest).grouped

@[simp] theorem first_treeOf (first : α) (rest : List (BinaryOp × α)) :
    (treeOf first rest).first = first := (treeOf_nests first rest).first_eq

@[simp] theorem rest_treeOf (first : α) (rest : List (BinaryOp × α)) :
    (treeOf first rest).rest = rest := (treeOf_nests first rest).rest_eq

/-- Every grouped tree is the tree of its frontier. -/
theorem Tree.Grouped.eq_treeOf {t : Tree α} (h : t.Grouped) : t = treeOf t.first t.rest :=
  h.unique (treeOf_grouped _ _) (by simp) (by simp)

/-- The tree of a chain with other operands. -/
theorem treeOf_map (f : α → β) (first : α) (rest : List (BinaryOp × α)) :
    (treeOf first rest).map f = treeOf (f first) (rest.map fun link => (link.1, f link.2)) := by
  have eq := ((treeOf_grouped first rest).map f).eq_treeOf
  simpa using eq

/-- Nesting level by level combines along the grouped tree. -/
theorem layered_eq_fold (combine : BinaryOp → α → α → α) (first : α)
    (rest : List (BinaryOp × α)) :
    layered combine first rest = (treeOf first rest).fold combine := by
  have eq := layers_map (c := Tree.node) (d := combine) (f := Tree.fold combine)
    (fun _ _ _ => rfl) levels (.leaf first) (leaves rest)
  rw [treeOf]
  unfold layered
  rw [eq]
  simp [leaves, Tree.fold, Function.comp_def]

/-! ## Operator by operator

An operator that comes in takes from the stacks all that bind at least as tightly. What is left
under it binds more loosely, so the operators on the stack ascend; what is taken is grouped, and may
stand on its left. -/

/-- What waits on two stacks, as a chain: its first operand and its links. The stacks have the
latest on top. -/
def waitingLinks : List (Tree α) → List BinaryOp → List (BinaryOp × α)
  | t :: l :: ts, op :: ops => waitingLinks (l :: ts) ops ++ (op, t.first) :: t.rest
  | [t], _ => t.rest
  | _, _ => []

/-- The first operand of what waits on a stack. -/
def waitingFirst : List (Tree α) → Option α
  | [] => none
  | [t] => some t.first
  | _ :: t :: ts => waitingFirst (t :: ts)

/-- What may wait: operators that bind the tighter the later they are, between operands that are
grouped and that each operator could take. -/
inductive Waiting : List (Tree α) → List BinaryOp → Prop
  | one {t : Tree α} : t.Grouped → Waiting [t] []
  | more {r l : Tree α} {ts : List (Tree α)} {op : BinaryOp} {ops : List BinaryOp} :
      Waiting (l :: ts) ops → r.Grouped → (∀ top ∈ ops.head?, top.precedence < op.precedence) →
      op.precedence ≤ l.strength → op.precedence < r.strength → Waiting (r :: l :: ts) (op :: ops)

theorem Waiting.top_grouped {t : Tree α} {ts : List (Tree α)} {ops : List BinaryOp}
    (h : Waiting (t :: ts) ops) : t.Grouped := by
  cases h with
  | one g => exact g
  | more _ g _ _ _ => exact g

/-- Nesting the two latest operands leaves what may wait, and the same chain. -/
theorem Waiting.reduce {r l : Tree α} {ts : List (Tree α)} {op : BinaryOp} {ops : List BinaryOp}
    (h : Waiting (r :: l :: ts) (op :: ops)) :
    Waiting (.node op l r :: ts) ops ∧
      waitingLinks (.node op l r :: ts) ops = waitingLinks (r :: l :: ts) (op :: ops) ∧
      waitingFirst (.node op l r :: ts) = waitingFirst (r :: l :: ts) := by
  cases h with
  | more below grouped loose left right =>
    have node : (Tree.node op l r).Grouped := ⟨left, right, below.top_grouped, grouped⟩
    cases below with
    | one g => exact ⟨.one node, rfl, rfl⟩
    | more below g loose' left' right' =>
      refine ⟨.more below node loose' left' (by simpa [Tree.strength] using loose), ?_, rfl⟩
      simp [waitingLinks]

/-- Reducing as long as the latest operator passes a test ends; it keeps the chain, and the operator
that is then on top, if any, fails the test. -/
theorem Waiting.reduceWhile {operands : List (Tree α)} {operators : List BinaryOp}
    (h : Waiting operands operators) (test : BinaryOp → Bool) :
    ∃ t ts ops, reduceWhile .node test operands operators = some ⟨t :: ts, ops⟩ ∧
      Waiting (t :: ts) ops ∧ waitingLinks (t :: ts) ops = waitingLinks operands operators ∧
      waitingFirst (t :: ts) = waitingFirst operands ∧
      (∀ top ∈ ops.head?, test top = false) ∧
      (operands.head? = some t ∨ ∃ op, test op = true ∧ t.strength = op.precedence) := by
  induction operators generalizing operands with
  | nil =>
    cases h with
    | one g => exact ⟨_, _, _, rfl, .one g, rfl, rfl, by simp, .inl rfl⟩
  | cons op ops ih =>
    cases h with
    | @more r l ts _ _ below grouped loose left right =>
      have h : Waiting (r :: l :: ts) (op :: ops) := .more below grouped loose left right
      by_cases passes : test op = true
      · obtain ⟨waiting, links, first⟩ := h.reduce
        obtain ⟨t, ts', ops', eq, waiting', links', first', stop, top⟩ := ih waiting
        refine ⟨t, ts', ops', ?_, waiting', links'.trans links, first'.trans first, stop, ?_⟩
        · rw [Grouping.reduceWhile, if_pos passes]
          exact eq
        · rcases top with top | top
          · obtain rfl : Tree.node op l r = t := by simpa using top
            exact .inr ⟨op, passes, rfl⟩
          · exact .inr top
      · refine ⟨r, l :: ts, op :: ops, ?_, h, rfl, rfl, ?_, .inl rfl⟩
        · rw [Grouping.reduceWhile, if_neg passes]
        · simpa using passes

/-- Taking one more operator and operand keeps the stacks in order and extends their chain. -/
theorem Waiting.push {x : α} {ts : List (Tree α)} {operators : List BinaryOp}
    (h : Waiting (.leaf x :: ts) operators) (op : BinaryOp) (y : α) :
    ∃ ts' ops,
      Grouping.push Tree.node ⟨.leaf x :: ts, operators⟩ op (.leaf y) =
        some ⟨.leaf y :: ts', ops⟩ ∧
      Waiting (.leaf y :: ts') ops ∧
      waitingLinks (.leaf y :: ts') ops = waitingLinks (.leaf x :: ts) operators ++ [(op, y)] ∧
      waitingFirst (.leaf y :: ts') = waitingFirst (.leaf x :: ts) := by
  obtain ⟨t, ts', ops, eq, waiting, links, first, stop, top⟩ :=
    h.reduceWhile (fun top => op.precedence ≤ top.precedence)
  have tight : op.precedence ≤ t.strength := by
    rcases top with top | ⟨top, passes, eq⟩
    · obtain rfl : t = .leaf x := by simpa using top.symm
      exact Nat.le_succ_of_le op.precedence_le
    · rw [eq]; exact of_decide_eq_true passes
  have below : op.precedence < (Tree.leaf y).strength :=
    Nat.lt_succ_of_le op.precedence_le
  refine ⟨t :: ts', op :: ops, by rw [Grouping.push, eq]; rfl, ?_, ?_, first⟩
  · exact .more waiting trivial (by simpa using stop) tight below
  · rw [waitingLinks, links]; rfl

/-- Taking a chain link by link puts its links behind what waits. -/
theorem Waiting.pushAll {x : α} {ts : List (Tree α)} {operators : List BinaryOp}
    (h : Waiting (.leaf x :: ts) operators) (rest : List (BinaryOp × α)) :
    ∃ s : Stacks (Tree α),
      Grouping.pushAll Tree.node ⟨.leaf x :: ts, operators⟩ (leaves rest) = some s ∧
      Waiting s.operands s.operators ∧
      waitingLinks s.operands s.operators = waitingLinks (.leaf x :: ts) operators ++ rest ∧
      waitingFirst s.operands = waitingFirst (.leaf x :: ts) := by
  induction rest generalizing x ts operators with
  | nil => exact ⟨_, rfl, h, by simp, rfl⟩
  | cons link rest ih =>
    obtain ⟨op, y⟩ := link
    obtain ⟨ts', ops, eq, waiting, links, first⟩ := h.push op y
    obtain ⟨s, eq', waiting', links', first'⟩ := ih waiting
    refine ⟨s, ?_, waiting', by rw [links', links]; simp, first'.trans first⟩
    show (Grouping.push Tree.node _ op (Tree.leaf y)).bind _ = some s
    rw [eq]
    exact eq'

/-- Nesting operator by operator gives the grouped tree of a chain. -/
theorem climb?_node (first : α) (rest : List (BinaryOp × α)) :
    climb? Tree.node (.leaf first) (leaves rest) = some (treeOf first rest) := by
  obtain ⟨s, eq, waiting, links, first_eq⟩ :=
    (Waiting.one (t := Tree.leaf first) trivial).pushAll rest
  obtain ⟨t, ts, ops, eq', waiting', links', first_eq', stop, -⟩ :=
    waiting.reduceWhile (fun _ => true)
  have none_left : ops = [] := by
    cases ops with
    | nil => rfl
    | cons op ops => simpa using stop op
  subst none_left
  cases waiting' with
  | one grouped =>
    have tree : t = treeOf first rest := by
      refine grouped.unique (treeOf_grouped first rest) ?_ ?_
      · simpa [waitingFirst] using first_eq'.trans first_eq
      · simpa [waitingLinks] using links'.trans links
    rw [climb?, eq]
    show (Grouping.reduceWhile Tree.node _ s.operands s.operators).bind _ = _
    rw [eq', tree]
    rfl

/-! ## Operator by operator, for any way to combine -/

/-- Which operators are taken from the stack does not depend on the operands. -/
theorem reduceWhile_map {c : BinaryOp → α → α → α} {d : BinaryOp → β → β → β} {f : α → β}
    (h : ∀ op x y, f (c op x y) = d op (f x) (f y)) (test : BinaryOp → Bool) (operands : List α)
    (operators : List BinaryOp) :
    reduceWhile d test (operands.map f) operators =
      (reduceWhile c test operands operators).map fun s => ⟨s.operands.map f, s.operators⟩ := by
  induction operators generalizing operands with
  | nil => rfl
  | cons op ops ih =>
    unfold reduceWhile
    split
    · rcases operands with _ | ⟨r, _ | ⟨l, operands⟩⟩
      · rfl
      · rfl
      · simp only [List.map_cons, ← h]
        exact ih (c op l r :: operands)
    · rfl

/-- Nor does it for a whole chain. -/
theorem pushAll_map {c : BinaryOp → α → α → α} {d : BinaryOp → β → β → β} {f : α → β}
    (h : ∀ op x y, f (c op x y) = d op (f x) (f y)) (s : Stacks α) (rest : List (BinaryOp × α)) :
    pushAll d ⟨s.operands.map f, s.operators⟩ (rest.map fun link => (link.1, f link.2)) =
      (pushAll c s rest).map fun s => ⟨s.operands.map f, s.operators⟩ := by
  induction rest generalizing s with
  | nil => rfl
  | cons link rest ih =>
    simp only [List.map_cons, pushAll, push, reduceWhile_map h]
    cases reduceWhile c _ s.operands s.operators with
    | none => rfl
    | some t => exact ih ⟨link.2 :: t.operands, link.1 :: t.operators⟩

/-- A map that carries one way to combine into another carries what is nested operator by
operator. -/
theorem climb?_map {c : BinaryOp → α → α → α} {d : BinaryOp → β → β → β} {f : α → β}
    (h : ∀ op x y, f (c op x y) = d op (f x) (f y)) (first : α) (rest : List (BinaryOp × α)) :
    climb? d (f first) (rest.map fun link => (link.1, f link.2)) =
      (climb? c first rest).map f := by
  have all := pushAll_map h ⟨[first], []⟩ rest
  simp only [List.map_cons, List.map_nil] at all
  rw [climb?, climb?, all]
  cases pushAll c ⟨[first], []⟩ rest with
  | none => rfl
  | some s =>
    simp only [Option.map_some, Option.bind_some, reduceWhile_map h]
    cases Grouping.reduceWhile c _ s.operands s.operators with
    | none => rfl
    | some t =>
      obtain ⟨operands, operators⟩ := t
      rcases operands with _ | ⟨_, _ | ⟨_, _⟩⟩ <;> cases operators <;> rfl

/-- Nesting operator by operator combines along the grouped tree. -/
theorem climb_eq_fold (combine : BinaryOp → α → α → α) (first : α)
    (rest : List (BinaryOp × α)) : climb combine first rest = (treeOf first rest).fold combine := by
  have eq := climb?_map (c := Tree.node) (d := combine) (f := Tree.fold combine)
    (fun _ _ _ => rfl) (.leaf first) (leaves rest)
  rw [climb?_node, leaves] at eq
  simp only [List.map_map, Function.comp_def, Tree.fold, Option.map_some, List.map_id'] at eq
  exact Option.some.inj ((Option.some_get _).trans eq)

end Wdl.Grouping
