import Wdl.Proofs.FrontEnds

/-!
# Wdl.Proofs.Productions -- chains derived level by level

A layered grammar has one rule for each level of operators: an operand of the level, an operator of
the level and an operand of the next level, or else just what the next level derives.
`Grouping.Derives` says so of trees. It turns out to be another way to say that a tree is grouped,
so the rules assign one tree to each chain. The stacks never lack an operand, keep their operators
in ascending order, and end with that very tree, each of its operators placed from its first operand
to its last.

* `derives_iff`: the loosest level derives the trees that are `Grouped`, and no others.
* `Assigned t first rest`: the rules assign the tree `t` to the chain, and only this one.
* `Stacks.Ordered` is the invariant of the two stacks, and `pushAll_ordered` has it after any part
  of a chain.
* `lastOperand` and `Spanned` say where the operators of a tree are placed.
* `climb_assigned` puts this together for chains of expressions.
-/

namespace Wdl

namespace Grouping

variable {α β : Type}

/-! ## The rules of the levels -/

/-- The level of a bare operand, behind the levels of all operators. -/
def operandLevel : Nat := 7

/-- The rules by which the levels of operators derive trees. What is left of an operator is derived
at its level, what is right of it at the next. -/
inductive Derives : Nat → Tree α → Prop
  | operand (x : α) : Derives operandLevel (.leaf x)
  | next {level : Nat} {t : Tree α} : level ∈ levels → Derives (level + 1) t → Derives level t
  | chain {op : BinaryOp} {l r : Tree α} : Derives op.precedence l → Derives (op.precedence + 1) r →
      Derives op.precedence (.node op l r)

/-- The levels of operators are numbered from one to six. -/
theorem mem_levels {level : Nat} : level ∈ levels ↔ 1 ≤ level ∧ level ≤ 6 := by
  simp only [levels, List.mem_cons, List.not_mem_nil, or_false]
  omega

/-- Nothing holds together more strongly than an operand. -/
theorem Tree.strength_le (t : Tree α) : t.strength ≤ operandLevel := by
  cases t with
  | leaf x => exact Nat.le_refl _
  | node op l r => exact Nat.le_succ_of_le op.precedence_le

/-- What a level derives is grouped, and holds together at least as strongly as the level. -/
theorem Derives.grouped {level : Nat} {t : Tree α} (h : Derives level t) :
    t.Grouped ∧ level ≤ t.strength := by
  induction h with
  | operand x => exact ⟨trivial, Nat.le_refl _⟩
  | next _ _ ih => exact ⟨ih.1, Nat.le_of_succ_le ih.2⟩
  | chain _ _ ihl ihr => exact ⟨⟨ihl.2, ihr.2, ihl.1, ihr.1⟩, Nat.le_refl _⟩

/-- What a level derives, all looser levels derive. -/
theorem Derives.looser {low high : Nat} {t : Tree α} (h : Derives high t) (le : low ≤ high)
    (pos : 1 ≤ low) (below : high ≤ operandLevel) : Derives low t := by
  induction le with
  | refl => exact h
  | @step high le ih =>
    have down : Derives high t :=
      .next (mem_levels.2 ⟨Nat.le_trans pos le, Nat.le_of_succ_le_succ below⟩) h
    exact ih down (Nat.le_of_succ_le below)

/-- A grouped tree is derived at the level of its root. -/
theorem Tree.Grouped.derives {t : Tree α} (h : t.Grouped) : Derives t.strength t := by
  induction t with
  | leaf x => exact .operand x
  | node op l r ihl ihr =>
    obtain ⟨hl, hr, gl, gr⟩ := h
    have left := (ihl gl).looser hl op.precedence_pos l.strength_le
    have right := (ihr gr).looser hr (Nat.le_add_left _ _) r.strength_le
    exact .chain left right

/-- The loosest level derives the grouped trees and no others. -/
theorem derives_iff {t : Tree α} : Derives 1 t ↔ t.Grouped := by
  constructor
  · exact fun h => h.grouped.1
  · intro h
    have pos : 1 ≤ t.strength := by
      cases t with
      | leaf x => exact Nat.le_add_left _ _
      | node op l r => exact op.precedence_pos
    exact h.derives.looser pos (Nat.le_refl _) t.strength_le

/-- A tree is the one that the rules assign to a chain: they derive it, its operands and operators
in order are those of the chain, and no other tree is so. -/
def Assigned (t : Tree α) (first : α) (rest : List (BinaryOp × α)) : Prop :=
  (Derives 1 t ∧ t.first = first ∧ t.rest = rest) ∧
    ∀ s : Tree α, Derives 1 s → s.first = first → s.rest = rest → s = t

/-- Nesting level by level gives the tree that the rules assign. -/
theorem treeOf_assigned (first : α) (rest : List (BinaryOp × α)) :
    Assigned (treeOf first rest) first rest := by
  refine ⟨⟨derives_iff.2 (treeOf_grouped first rest), first_treeOf first rest,
    rest_treeOf first rest⟩, ?_⟩
  intro s derived hfirst hrest
  subst hfirst hrest
  exact (derives_iff.1 derived).eq_treeOf

/-! ## What the stacks hold -/

/-- There is one operand more than operators, and later operators bind more tightly than earlier
ones. -/
structure Stacks.Ordered (s : Stacks α) : Prop where
  balanced : s.Balanced
  ascending : s.operators.Pairwise fun later earlier => earlier.precedence < later.precedence

/-- What waits on the stacks is one operand more than operators, in ascending order. -/
theorem Waiting.ordered {operands : List (Tree α)} {operators : List BinaryOp}
    (h : Waiting operands operators) : Stacks.Ordered ⟨operands, operators⟩ := by
  induction h with
  | one _ => exact ⟨rfl, .nil⟩
  | @more r l ts op ops _ _ loose _ _ ih =>
    refine ⟨congrArg (· + 1) ih.balanced, List.pairwise_cons.2 ⟨?_, ih.ascending⟩⟩
    intro earlier mem
    cases ops with
    | nil => cases mem
    | cons top ops =>
      have here : top.precedence < op.precedence := loose top rfl
      rcases List.mem_cons.1 mem with rfl | mem
      · exact here
      · exact Nat.lt_trans ((List.pairwise_cons.1 ih.ascending).1 earlier mem) here

/-- Whatever part of a chain was taken, the stacks did not fail and are in order. -/
theorem pushAll_ordered (combine : BinaryOp → α → α → α) (first : α)
    (done : List (BinaryOp × α)) :
    ∃ s, pushAll combine ⟨[first], []⟩ done = some s ∧ s.Ordered := by
  obtain ⟨s, eq, waiting, -, -⟩ := (Waiting.one (t := Tree.leaf first) trivial).pushAll done
  -- the stacks of combined operands are the stacks of trees, with every tree combined
  have combined := pushAll_map (c := Tree.node) (d := combine) (f := Tree.fold combine)
    (fun _ _ _ => rfl) ⟨[.leaf first], []⟩ (leaves done)
  rw [eq, leaves, List.map_map] at combined
  refine ⟨_, by simpa [Function.comp_def, Tree.fold] using combined, ?_, waiting.ordered.ascending⟩
  have balanced : s.operands.length = s.operators.length + 1 := waiting.ordered.balanced
  simpa [Stacks.Balanced] using balanced

end Grouping

namespace Build

open Grouping

/-! ## Where operators are placed -/

/-- The last operand of a tree. -/
def lastOperand : Grouping.Tree Expr → Expr
  | .leaf x => x
  | .node _ _ right => lastOperand right

/-- Every operator in a tree reaches from the start of its first operand to the end of its last. -/
def Spanned : Grouping.Tree Expr → Prop
  | .leaf _ => True
  | .node op left right =>
    ((Grouping.Tree.node op left right).fold combineBuilt).range =
        ⟨left.first.range.start, (lastOperand right).range.stop⟩ ∧
      Spanned left ∧ Spanned right

/-- A tree reaches from its first operand to its last, however its operators nest. -/
theorem range_fold (t : Grouping.Tree Expr) :
    (t.fold combineBuilt).range = t.first.range.join (lastOperand t).range := by
  induction t with
  | leaf x => rfl
  | node op l r ihl ihr =>
    show (l.fold combineBuilt).range.join (r.fold combineBuilt).range = _
    rw [ihl, ihr]
    rfl

theorem spanned (t : Grouping.Tree Expr) : Spanned t := by
  induction t with
  | leaf x => trivial
  | node op l r ihl ihr => exact ⟨range_fold (.node op l r), ihl, ihr⟩

/-! ## Chains of expressions -/

/-- An operand with its own range. -/
def placed (e : Expr) : Placed := (e.range, e)

/-- Either front end nests a chain along its tree. -/
theorem nestChain_placed (fe : FrontEnd) (first : Expr) (rest : List (BinaryOp × Expr)) :
    nestChain fe (placed first) (rest.map fun link => (link.1, placed link.2)) =
      (treeOf first rest).fold combineBuilt := by
  have links : ∀ x ∈ rest.map fun link => (link.1, placed link.2), x.2.Exact := by
    intro x hx
    obtain ⟨link, -, rfl⟩ := List.mem_map.1 hx
    rfl
  rw [nestChain_frontEnd fe .flat (placed first) _ rfl links]
  show climb combineBuilt first (List.map _ (List.map _ rest)) = _
  rw [List.map_map, climb_eq_fold]
  simp [placed, Function.comp_def]

/-- Nesting operator by operator. The stacks never lack an operand: whatever part of a chain was
taken, there is one operand more than operators, and later operators bind more tightly than earlier
ones. In the end one operand is left. It is the tree that the rules of the levels assign to the
chain, which is also what either front end builds. In it no operator has a looser one on its left,
or a looser or equal one on its right, and each reaches from the start of its first operand to the
end of its last. -/
theorem climb_assigned (first : Expr) (rest : List (BinaryOp × Expr)) :
    (∀ n, ∃ s, pushAll combineBuilt ⟨[first], []⟩ (rest.take n) = some s ∧ s.Ordered) ∧
    ∃ t : Grouping.Tree Expr, Assigned t first rest ∧
      climb? combineBuilt first rest = some (t.fold combineBuilt) ∧
      (∀ fe, nestChain fe (placed first) (rest.map fun link => (link.1, placed link.2)) =
        t.fold combineBuilt) ∧
      t.Grouped ∧ Spanned t := by
  refine ⟨fun n => pushAll_ordered combineBuilt first (rest.take n), treeOf first rest,
    treeOf_assigned first rest, ?_, fun fe => nestChain_placed fe first rest,
    treeOf_grouped first rest, spanned _⟩
  show climb? combineBuilt first rest = _
  rw [← climb_eq_fold combineBuilt first rest, climb, Option.some_get]

/-- A product binds more tightly than the sum before it, and the difference behind it takes both. -/
example : climb? (fun op a b => "(" ++ a ++ op.spelling ++ b ++ ")") "a"
    [(.add, "b"), (.mul, "c"), (.sub, "d")] = some "((a+(b*c))-d)" := by decide

end Build

end Wdl
