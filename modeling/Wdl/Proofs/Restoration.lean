import Wdl.Proofs.Retrieval

/-!
# Wdl.Proofs.Restoration -- the tokens of a rendering write the expression that was rendered

Parentheses stand in a rendering just where an operand would otherwise be taken apart, and signs in
front of numbers are folded back into them. So the tokens of a writable expression have a script,
and what is built from that has the content of the expression.

* `Writes rules level place xs v` says that the tokens `xs` write an expression of a layer of the
  grammar that is built to one with the content `v`. What is built is compared by `Expr.view`,
  because ranges and the notation of numbers are not the same.
* `Expr.Restored rules e` says that the lexemes of `e` write it, wherever they stand. It has one
  lemma for each kind of expression, `Expr.restored_array` and the like, and
  `Node.Everywhere.restored` is the induction on the tree.
* Chains are where this needs thought: the operators that a rendering leaves without parentheses
  form a tree that is grouped by precedence, and a chain has only one such tree. `Chained` carries
  the tree along, and `Chained.writes` gets from it to what is built.

The last part, from `Node.Plain` on, is about surrogates: a rendering has one only where a text of
the expression has, so without them it is the text of some characters and can be parsed.
-/

namespace Wdl

variable {rules : Rules} {v : View}

/-- Where an expression is does not belong to its content. -/
theorem view_withRange (r : Range) (e : Expr) : (e.withRange r).view = e.view := by
  cases e <;> simp [Expr.withRange, Expr.view]

namespace Parser

variable {place : Place} {xs ys : List Step}

/-! ## Layers

An operand that ends with a choice would take in all that follows, so below the layer of whole
expressions none may. -/

/-- The steps write an expression of a layer that is built to one of the given content; no operand
ends with a choice. -/
def Writes (rules : Rules) (level : Level) (place : Place) (xs : List Step) (v : View) : Prop :=
  ∃ σ e, Script level place σ xs ∧ (level ≠ .expr → endsOpen σ = false) ∧
    Build.expr rules σ = .ok e ∧ e.view = v

namespace Writes

/-- A primary is an operand without accesses. -/
theorem toAccessed (h : Writes rules .primary place xs v) : Writes rules .accessed place xs v := by
  obtain ⟨σ, e, script, closed, rest⟩ := h
  exact ⟨σ, e, .bare script, fun _ => closed (by simp), rest⟩

/-- An accessed operand is one without signs. -/
theorem toOperand (h : Writes rules .accessed place xs v) : Writes rules .operand place xs v := by
  obtain ⟨σ, e, script, closed, rest⟩ := h
  exact ⟨σ, e, .unsigned script, fun _ => closed (by simp), rest⟩

/-- What is written on any layer is an expression. -/
theorem toExpr {level : Level} (h : Writes rules level place xs v) :
    Writes rules .expr place xs v := by
  obtain ⟨σ, e, script, -, rest⟩ := h
  exact ⟨σ, e, script.toExpr, fun other => absurd rfl other, rest⟩

end Writes

/-! ## Accesses -/

/-- What a primary with accesses is built to. -/
theorem built_accessedBy {σ : Surface.Expr} {suffixes : List Suffix} {e : Expr} :
    Build.expr rules (accessedBy σ suffixes) = .ok e ↔
      ∃ b as, Build.expr rules σ = .ok b ∧
        Build.accesses rules (suffixes.map Suffix.accessor) = .ok as ∧
        Build.nestAccesses σ.range.start b as = e := by
  cases suffixes with
  | nil => simp [accessedBy, Build.accesses, Build.nestAccesses]
  | cons a suffixes =>
    simp only [accessedBy, Build.expr, Build.bind_eq_ok, Build.pure_eq_ok]
    constructor
    · rintro ⟨b, hb, as, has, eq⟩
      rw [applyAccesses_eq _ (congrArg Range.start (Build.expr_range rules σ hb))] at eq
      exact ⟨b, as, hb, has, eq⟩
    · rintro ⟨b, as, hb, has, eq⟩
      refine ⟨b, hb, as, has, ?_⟩
      rwa [applyAccesses_eq _ (congrArg Range.start (Build.expr_range rules σ hb))]

/-- What is accessed decides the content of an access. -/
theorem view_access {e e' : Expr} (h : e.view = e'.view) (a : Build.Access) (r r' : Range) :
    (a.apply r e).view = (a.apply r' e').view := by
  cases a <;> simp [Build.Access.apply, Expr.view, h]

/-- An access behind an accessed operand. -/
theorem Writes.access {e : Expr} {a : Suffix} {access : Build.Access}
    (h : Writes rules .accessed place xs e.view) (fits : a.Fits)
    (inner : ∀ x ∈ a.inner, Script .expr .plain x.expr x.steps)
    (built : Build.accesses rules [a.accessor] = .ok [access]) (r : Range) :
    Writes rules .accessed place (xs ++ a.steps) (access.apply r e).view := by
  obtain ⟨σ, e', script, closed, hσ, view⟩ := h
  -- the access goes behind those that the operand has already
  obtain ⟨σ₀, xs₀, suffixes, primary, rfl, rfl, fits', inner', closed'⟩ := script.accessed_cases
  obtain ⟨b, as, hb, has, rfl⟩ := built_accessedBy.1 hσ
  have open_ : endsOpen σ₀ = false := by
    cases suffixes with
    | nil => exact closed (by simp)
    | cons s suffixes => exact closed' (by simp)
  have ne : suffixes ++ [a] ≠ [] := by simp
  have whole := Script.accessed (suffixes ++ [a]) ne open_ primary
    (List.forall_mem_append.2 ⟨fits', by simpa using fits⟩)
    (List.forall_mem_append.2 ⟨inner', by simpa using inner⟩)
  refine ⟨.access σ₀ ((suffixes ++ [a]).map Suffix.accessor), access.apply
    ⟨σ₀.range.start, access.range.stop⟩ (Build.nestAccesses σ₀.range.start b as), ?_,
    fun _ => rfl, ?_, view_access view access _ _⟩
  · rw [List.flatMap_append, ← List.append_assoc] at whole
    simpa using whole
  · have same : Surface.Expr.access σ₀ ((suffixes ++ [a]).map Suffix.accessor) =
        accessedBy σ₀ (suffixes ++ [a]) := by
      cases suffixes <;> rfl
    rw [same, built_accessedBy]
    refine ⟨b, as ++ [access], hb, ?_, nestAccesses_append _ _ _ _⟩
    rw [List.map_append, Build.accesses_append]
    exact ⟨as, [access], has, built, rfl⟩

/-- A member behind an accessed operand. -/
theorem Writes.member {e : Expr} {dot name : Token} (h : Writes rules .accessed place xs e.view)
    (isDot : dot.kind = .symbol .dot) (isName : name.kind = .name)
    (allowed : Build.checkMember rules (word name) = .ok ()) (r : Range) :
    Writes rules .accessed place (xs ++ [⟨dot, Expect.aName⟩, ⟨name, Expect.afterOperand⟩])
      (Expr.get r e name.text).view :=
  @Writes.access _ _ _ e (.member dot name) (.member ⟨dot.start, name.stop⟩ name.text) h
    ⟨isDot, isName⟩ (by simp [Suffix.inner]) (by rw [Suffix.accessor, Build.accesses, allowed]; rfl)
    r

/-- An index behind an accessed operand. -/
theorem Writes.index {e i : Expr} {bracket close : Token}
    (h : Writes rules .accessed place xs e.view) (inner : Writes rules .expr .plain ys i.view)
    (opens : bracket.kind = .symbol .bracketOpen) (closes : close.kind = .symbol .bracketClose)
    (r : Range) :
    Writes rules .accessed place
      (xs ++ ⟨bracket, Expect.expr⟩ :: (ys ++ [⟨close, Expect.afterOperand⟩]))
      (Expr.index r e i).view := by
  obtain ⟨σ, i', script, -, built, view⟩ := inner
  have whole := @Writes.access _ _ _ e (.index bracket close ⟨σ, ys⟩)
    (.index ⟨bracket.start, close.stop⟩ i') h ⟨opens, closes⟩ (by simpa [Suffix.inner] using script)
    (by rw [Suffix.accessor, Build.accesses, built]; rfl) r
  have same : (Build.Access.apply r e (.index ⟨bracket.start, close.stop⟩ i')).view =
      (Expr.index r e i).view := by
    simp [Build.Access.apply, Expr.view, view]
  rw [← same]
  exact whole

/-! ## Signs

Building folds a sign into a number. It can only be a number that the rendering wrote with its sign,
since a sign that was applied to one without folding cannot have been parsed. -/

/-- A prefix operator before an operand. -/
theorem Writes.sign {x : Sign} (h : Writes rules .operand .plain xs v)
    (op : unaryOp? x.token.kind = some x.op) :
    ∃ e r, e.view = v ∧
      Writes rules .operand place (x.step :: xs) (Build.applySign r x.op e).view := by
  obtain ⟨σ, e, script, closed, built, view⟩ := h
  have stop : ∀ (signs : List Sign) (σ : Surface.Expr),
      (Surface.Expr.signed (signs.map Sign.sign) σ).range.stop = σ.range.stop := by
    intro signs σ
    cases signs <;> simp [Surface.Expr.range, Sign.sign]
  -- signs are written as one list: the new one is the first of those that are there
  cases script with
  | unsigned script =>
    refine ⟨e, ⟨x.token.range.start, σ.range.stop⟩, view,
      .signed ([x].map Sign.sign) σ, _, .signed [x] (by simp) (by simpa using op) script, closed,
      ?_, rfl⟩
    simp only [Build.expr, Build.bind_eq_ok, Build.pure_eq_ok, applySigns_eq, stop]
    exact ⟨e, built, rfl⟩
  | @signed _ σ ys signs ne ops script =>
    simp only [Build.expr, Build.bind_eq_ok, Build.pure_eq_ok, applySigns_eq, stop] at built
    obtain ⟨b, hb, rfl⟩ := built
    refine ⟨_, ⟨x.token.range.start, σ.range.stop⟩, view,
      .signed ((x :: signs).map Sign.sign) σ, _,
      .signed (x :: signs) (by simp) (List.forall_mem_cons.2 ⟨op, ops⟩) script, closed, ?_, rfl⟩
    simp only [Build.expr, Build.bind_eq_ok, Build.pure_eq_ok, applySigns_eq, stop]
    exact ⟨b, hb, rfl⟩

/-! ## Chains

The strength of a tree is the precedence at its root, and seven for a single operand, which is more
than any operator has. Parentheses stand around everything weaker than asked for, so the trees of
operands are always strong enough for `Chained.node`. -/

/-- A tree of operands that is written by some steps and built to some content. The token of an
operator stands in front of it. -/
structure Chained (rules : Rules) (place : Place) (sign : Token) (xs : List Step) (v : View)
    (t : Grouping.Tree Operand) : Prop where
  sign : t.first.sign = sign
  grouped : t.Grouped
  steps : treeSteps t = xs
  script : Script .operand place t.first.piece.expr t.first.piece.steps
  first : t.first.Good rules
  rest : ∀ x ∈ t.rest, Operand.Linked rules x
  closed : ∀ x ∈ treeOperands t, endsOpen x = false
  view : ((t.map Operand.placed).fold Build.combinePlaced).2.view = v

/-- An operand alone is a tree. -/
theorem Writes.chained (h : Writes rules .operand place xs v) (sign : Token) :
    ∃ t, t.strength = 7 ∧ Chained rules place sign xs v t := by
  obtain ⟨σ, e, script, closed, built, view⟩ := h
  refine ⟨.leaf ⟨sign, ⟨σ, xs⟩, e⟩, rfl, rfl, trivial, ?_, script, ⟨built, script.written built⟩,
    by simp, ?_, view⟩
  · simp [treeSteps, treeLinks]
  · simpa [treeOperands, treeLinks] using closed (by simp)

/-- An operator between trees that hold together more strongly makes a tree. -/
theorem Chained.node {op : BinaryOp} {sign t : Token} {a b : Expr} {l r : Grouping.Tree Operand}
    (hl : Chained rules place sign xs a.view l) (hr : Chained rules .plain t ys b.view r)
    (kind : binaryOp? t.kind = some op) (left : op.precedence ≤ l.strength)
    (right : op.precedence < r.strength) (range : Range) :
    Chained rules place sign (xs ++ ⟨t, Expect.expr⟩ :: ys) (Expr.binary range op a b).view
      (.node op l r) := by
  refine ⟨hl.sign, ⟨left, right, hl.grouped, hr.grouped⟩, ?_, hl.script, hl.first, ?_, ?_, ?_⟩
  -- the token of the operator stands in front of the first operand on its right
  · rw [treeSteps_node, hl.steps, hr.steps, hr.sign]
  · intro x hx
    simp only [Grouping.Tree.rest_node, List.mem_append, List.mem_cons] at hx
    rcases hx with hx | rfl | hx
    · exact hl.rest x hx
    · exact ⟨by rw [hr.sign]; exact kind, hr.script, hr.first⟩
    · exact hr.rest x hx
  · rw [treeOperands_node]
    exact List.forall_mem_append.2 ⟨hl.closed, hr.closed⟩
  · show (Expr.binary _ op _ _).view = _
    rw [Expr.view, Expr.view, hl.view, hr.view]

/-- A tree of operands is an expression. -/
theorem Chained.writes {sign : Token} {t : Grouping.Tree Operand}
    (h : Chained rules place sign xs v t) : Writes rules .expr place xs v := by
  have built := tree_built h.grouped h.first fun x hx => (h.rest x hx).good
  obtain ⟨-, grouped, rfl, script, first, rest, closed, view⟩ := h
  cases t with
  -- without operators there is no chain, and the operand stands for itself
  | leaf x =>
    refine ⟨x.piece.expr, x.built, ?_, by simp, first.built, view⟩
    simpa [treeSteps, treeLinks] using script.toExpr
  | node op l r =>
    refine ⟨_, _, Script.chain (treeLinks (.node op l r)) (by simp [treeLinks]) script ?_ ?_ ?_,
      by simp, built, view⟩
    · intro x hx
      obtain ⟨y, hy, rfl⟩ := List.mem_map.1 hx
      exact (rest y hy).sign
    · intro x hx
      obtain ⟨y, hy, rfl⟩ := List.mem_map.1 hx
      exact (rest y hy).script
    · exact fun x hx => closed x (List.dropLast_subset _ hx)

end Parser

open Wdl.Parser

/-! ## Expressions that are restored

`Expr.level` is the lowest layer on which the tokens of an expression are found. Numbers are
operands because of their sign. In parentheses every expression is a primary, so only what stands
without them needs its layer to fit. -/

/-- The layer that the tokens of an expression are of. -/
def Expr.level : Expr → Level
  | .binary _ _ _ _ | .ifThenElse _ _ _ _ => .expr
  | .unary _ _ _ | .int _ _ _ | .float _ _ => .operand
  | .get _ _ _ | .index _ _ _ => .accessed
  | _ => .primary

/-- Wherever the tokens of an expression stand, they write it; those of an operator make a tree. -/
structure Expr.Restored (rules : Rules) (e : Expr) : Prop where
  writes : ∀ gap place at_,
    Writes rules e.level place (stepsFrom at_ (e.lexemes gap place)) e.view
  chained : e.isBinary = true → ∀ gap place at_ sign,
    ∃ t, t.strength = e.binding ∧
      Chained rules place sign (stepsFrom at_ (e.lexemes gap place)) e.view t

/-- Wherever the tokens of what is accessed stand, they write it. -/
def Expr.SubjectRestored (rules : Rules) (e : Expr) : Prop := ∀ gap place at_,
  Writes rules .accessed place (stepsFrom at_
    (enclosed (e.needsParens Expr.accessBinding false) e.lexemes gap place)) e.view

namespace Expr.Restored

variable {e : Expr}

/-- An expression other than an operator is restored by its own layer. -/
theorem of_writes (other : e.isBinary = false) (h : ∀ gap place at_,
    Writes rules e.level place (stepsFrom at_ (e.lexemes gap place)) e.view) :
    e.Restored rules := by
  refine ⟨h, fun binary => ?_⟩
  rw [binary] at other
  cases other

/-- In parentheses every expression is a primary. -/
theorem grouped (h : e.Restored rules) (gap : List Char) (place : Place) (at_ : Nat) :
    Writes rules .primary place (stepsFrom at_ (enclosed true e.lexemes gap place)) e.view := by
  rw [enclosed, if_pos rfl, stepsFrom, stepsFrom_append]
  obtain ⟨σ, e', script, -, built, view⟩ := (h.writes [] .plain _).toExpr
  refine ⟨_, _, .group _ _ rfl rfl script, fun _ => rfl, by rw [Build.expr, built]; rfl, ?_⟩
  rw [view_withRange, view]

/-- What is no whole expression is an operand. -/
theorem operand_of_level (h : e.Restored rules) (level : e.level ≠ .expr) (gap : List Char)
    (place : Place) (at_ : Nat) :
    Writes rules .operand place (stepsFrom at_ (e.lexemes gap place)) e.view := by
  have here := h.writes gap place at_
  cases eq : e.level with
  | primary => rw [eq] at here; exact here.toAccessed.toOperand
  | accessed => rw [eq] at here; exact here.toOperand
  | operand => rw [eq] at here; exact here
  | expr => exact absurd eq level

/-- The operand of a prefix operator. -/
theorem operand (h : e.Restored rules) (gap : List Char) (place : Place) (at_ : Nat) :
    Writes rules .operand place (stepsFrom at_
      (enclosed (e.needsParens Expr.unaryBinding false) e.lexemes gap place)) e.view := by
  cases parens : e.needsParens Expr.unaryBinding false with
  | true => exact (h.grouped gap place at_).toAccessed.toOperand
  | false =>
    refine h.operand_of_level (fun level => ?_) gap place at_
    cases e with
    | binary r op a b => cases op <;> cases parens
    | ifThenElse r a b c => cases parens
    | _ => cases level

/-- What is accessed, if it is no number. -/
theorem subject (h : e.Restored rules) (other : e.isNumber = false) : e.SubjectRestored rules := by
  intro gap place at_
  cases parens : e.needsParens Expr.accessBinding false with
  | true => exact (h.grouped gap place at_).toAccessed
  | false =>
    have here := h.writes gap place at_
    -- without parentheses only what is accessed already, or stands for itself, is left
    cases e with
    | get r e member => exact here
    | index r e i => exact here
    | binary r op a b => cases op <;> cases parens
    | ifThenElse r a b c => cases parens
    | unary r op e => cases parens
    | int r value radix => cases other
    | float r x => cases other
    | _ => exact here.toAccessed

/-- An operand of a binary operator; what stands right of it holds together more strongly. -/
theorem tree (h : e.Restored rules) (op : BinaryOp) (onRight : Bool) (gap : List Char)
    (place : Place) (at_ : Nat) (sign : Token) :
    ∃ t, op.precedence ≤ t.strength ∧ (onRight = true → op.precedence < t.strength) ∧
      Chained rules place sign (stepsFrom at_
        (enclosed (e.needsParens op.precedence onRight) e.lexemes gap place)) e.view t := by
  have le := op.precedence_le
  -- what is written as a single operand holds together more strongly than any operator
  have alone : ∀ {ls}, Writes rules .operand place (stepsFrom at_ ls) e.view →
      ∃ t, op.precedence ≤ t.strength ∧ (onRight = true → op.precedence < t.strength) ∧
        Chained rules place sign (stepsFrom at_ ls) e.view t := by
    intro ls h
    obtain ⟨t, strength, chained⟩ := h.chained sign
    exact ⟨t, by omega, fun _ => by omega, chained⟩
  cases parens : e.needsParens op.precedence onRight with
  | true => exact alone (h.grouped gap place at_).toAccessed.toOperand
  | false =>
    simp only [Expr.needsParens, Bool.or_eq_false_iff, decide_eq_false_iff_not,
      Bool.and_eq_false_imp] at parens
    obtain ⟨loose, right⟩ := parens
    -- an operator without parentheses continues the chain, and is not the same on the right
    cases binary : e.isBinary with
    | true =>
      obtain ⟨t, strength, chained⟩ := h.chained binary gap place at_ sign
      refine ⟨t, by omega, fun isRight => ?_, chained⟩
      have differs : e.binding ≠ op.precedence := by
        intro same
        rw [right (by simp [isRight, same])] at binary
        cases binary
      omega
    | false =>
      refine alone (h.operand_of_level (fun level => ?_) gap place at_)
      have pos := op.precedence_pos
      cases e with
      | ifThenElse r a b c =>
        simp only [Expr.binding] at loose
        omega
      | binary r op a b => cases binary
      | _ => cases level

end Expr.Restored

/-! ## Words and numbers

-/

/-- Truth values are restored. -/
theorem Expr.restored_boolean (r : Range) (value : Bool) : (Expr.boolean r value).Restored rules :=
  .of_writes rfl fun _ _ _ =>
    ⟨_, _, .boolean _ value rfl, fun _ => rfl, rfl, by simp [Expr.view]⟩

/-- The word for nothing is restored. -/
theorem Expr.restored_null (r : Range) : (Expr.null r).Restored rules :=
  .of_writes rfl fun _ _ _ => ⟨_, _, .null _ rfl, fun _ => rfl, rfl, by simp [Expr.view]⟩

/-- A name that is not reserved passes the check. -/
theorem checkName_of_unreserved {w : Surface.Word} (h : w.text ∉ rules.reserved) :
    Build.checkName rules w = .ok () := by
  rw [Build.checkName, if_neg (by simpa using h)]

/-- The token of a lexeme that stands at a position. -/
def Lexeme.token (l : Lexeme) (at_ : Nat) : Token := (l.step at_).token

/-- The token of a name spells it. -/
theorem text_name (gap : List Char) (s : String) (after : Expect) (at_ : Nat) :
    ((Lexeme.name gap s after).token at_).text = s := String.ofList_toList

/-- Names that are not reserved are restored. -/
theorem Expr.restored_ident (r : Range) {name : String} (unreserved : name ∉ rules.reserved) :
    (Expr.ident r name).Restored rules := by
  refine .of_writes rfl fun gap place at_ => ?_
  have text := text_name gap name place.afterName at_
  rw [← text] at unreserved
  have free : Build.checkName rules (word ((Lexeme.name gap name place.afterName).token at_)) =
      .ok () := checkName_of_unreserved unreserved
  refine ⟨_, .ident ((Lexeme.name gap name place.afterName).token at_).range name,
    .name ((Lexeme.name gap name place.afterName).token at_) rfl, fun _ => rfl, ?_,
    by simp [Expr.view]⟩
  rw [Build.expr, free]
  show Except.ok (Expr.ident _ ((Lexeme.name gap name place.afterName).token at_).text) = _
  rw [text]
  rfl

/-- A numeral is the number that is read from it. -/
theorem writes_numeral {numeral : NumeralKind × List Char} {e : Expr}
    (read : ∀ r, ∃ value, Build.numberValue ⟨r, numeral.1, numeral.2⟩ = .ok value ∧
      (value.expr r).view = e.view) (gap : List Char) (place : Place) (at_ : Nat) :
    Writes rules .primary place
      (stepsFrom at_ [⟨gap, .number numeral.1, numeral.2, Expect.afterNumber⟩]) e.view := by
  obtain ⟨value, eq, view⟩ := read
    (Lexeme.token ⟨gap, .number numeral.1, numeral.2, Expect.afterNumber⟩ at_).range
  refine ⟨_, value.expr _, .number numeral.1
    (Lexeme.token ⟨gap, .number numeral.1, numeral.2, Expect.afterNumber⟩ at_) rfl,
    fun _ => rfl, ?_, view⟩
  show (do return (← Build.numberValue ⟨_, numeral.1, numeral.2⟩).expr _ : Checked Expr) = _
  rw [eq]
  rfl

/-- A minus sign before a number changes what the number is. -/
theorem view_neg {e e' : Expr} (h : e'.view = e.view) (number : e.isNumber = true) (r r' : Range) :
    (Build.applySign r' .neg e').view = (Build.applySign r .neg e).view := by
  cases e with
  | int _ value radix =>
    cases e' with
    | int _ value' radix' =>
      have same : value' = value := by simpa [Expr.view] using h
      simp [Build.applySign, Expr.view, same]
    | _ => simp [Expr.view] at h
  | float _ x =>
    cases e' with
    | float _ x' =>
      have same : x' = x := by simpa [Expr.view] using h
      simp [Build.applySign, Expr.view, same]
    | _ => simp [Expr.view] at h
  | _ => cases number

/-- A numeral with its sign is the number with that sign. -/
theorem writes_number {numeral : NumeralKind × List Char} {e : Expr} (number : e.isNumber = true)
    (read : ∀ r, ∃ value, Build.numberValue ⟨r, numeral.1, numeral.2⟩ = .ok value ∧
      (value.expr r).view = e.view)
    (negative : Bool) (gap : List Char) (place : Place) (at_ : Nat) :
    Writes rules .operand place (stepsFrom at_ (numberLexemes gap negative numeral))
      (if negative then Build.applySign default .neg e else e).view := by
  cases negative with
  | false => exact (writes_numeral read gap place at_).toAccessed.toOperand
  | true =>
    have inner : Writes rules .operand .plain _ e.view := (writes_numeral read [] .plain
      (at_ + (Lexeme.symbol gap .minus Expect.expr).text.length)).toAccessed.toOperand
    obtain ⟨e', r, view, whole⟩ := @Writes.sign rules _ place _
      ⟨.neg, (Lexeme.symbol gap .minus Expect.expr).token at_⟩ inner rfl
    rw [view_neg view number default] at whole
    exact whole

/-- The content of an integer is its value, however it was written. -/
theorem view_int {value value' : Int} (h : value = value') (r r' : Range) (radix radix' : Radix) :
    (Expr.int r value radix).view = (Expr.int r' value' radix').view := by
  rw [h, Expr.view, Expr.view]

/-- Integers in range are restored, whatever their sign and notation. -/
theorem Expr.restored_int (r : Range) {value : Int} (small : value.natAbs ≤ maxInt)
    (radix : Radix) : (Expr.int r value radix).Restored rules := by
  refine .of_writes rfl fun gap place at_ => ?_
  -- the digits are those of the magnitude, and the sign in front of them is folded back
  have read : ∀ r, ∃ v, Build.numberValue ⟨r, (numeralOf radix value.natAbs).1,
      (numeralOf radix value.natAbs).2⟩ = .ok v ∧
      (v.expr r).view = (Expr.int default value.natAbs .decimal).view := by
    intro r
    obtain ⟨radix', eq⟩ := Build.numberValue_numeralOf r radix small
    exact ⟨_, eq, view_int rfl _ _ _ _⟩
  have whole := @writes_number rules _ _ rfl read (value < 0) gap place at_
  have same : (if (decide (value < 0)) = true then
      Build.applySign default .neg (Expr.int default value.natAbs .decimal)
      else Expr.int default value.natAbs .decimal).view = (Expr.int r value radix).view := by
    split
    · rename_i negative
      have below : value < 0 := of_decide_eq_true negative
      exact view_int (by omega) _ _ _ _
    · rename_i positive
      have atLeast : ¬ value < 0 := fun less => positive (decide_eq_true less)
      exact view_int (by omega) _ _ _ _
  rw [same] at whole
  exact whole

/-- Floating-point numbers that read back are restored. -/
theorem Expr.restored_float (r : Range) {x : Binary64} (readable : x.Readable) :
    (Expr.float r x).Restored rules := by
  refine .of_writes rfl fun gap place at_ => ?_
  have read : ∀ r, ∃ v, Build.numberValue ⟨r, .float, x.magnitudeText⟩ = .ok v ∧
      (v.expr r).view = (Expr.float default { x with negative := false }).view := by
    intro r
    exact ⟨_, rfl, by simp [Build.NumberValue.expr, Expr.view, readable.2]⟩
  have whole := @writes_number rules (.float, x.magnitudeText) _ rfl read x.negative gap place at_
  -- the sign is written apart from the magnitude, and folded back into it
  have same : (if x.negative = true then
      Build.applySign default .neg (Expr.float default { x with negative := false })
      else Expr.float default { x with negative := false }).view = (Expr.float r x).view := by
    obtain ⟨negative, magnitude, le⟩ := x
    cases negative <;> simp [Build.applySign, Expr.view, Binary64.neg]
  rw [same] at whole
  exact whole

/-! ## Operators and accesses

-/

/-- A member that is allowed passes the check. -/
theorem checkMember_of_free {w : Surface.Word}
    (free : w.text ∈ Build.pairMembers ∨ w.text ∉ rules.reserved) :
    Build.checkMember rules w = .ok () := by
  rw [Build.checkMember]
  split
  · rfl
  · rename_i missing
    exact checkName_of_unreserved (free.resolve_left (by simpa using missing))

/-- An access to a member is restored if what is accessed is. -/
theorem Expr.restored_get (r : Range) {e : Expr} {member : String} (h : e.SubjectRestored rules)
    (free : member ∈ Build.pairMembers ∨ member ∉ rules.reserved) :
    (Expr.get r e member).Restored rules := by
  refine .of_writes rfl fun gap place at_ => ?_
  rw [Expr.lexemes, stepsFrom_append]
  generalize at_ + (spelled _).length = behind
  have text := text_name [] member Expect.afterOperand
    (behind + (Lexeme.symbol [] .dot Expect.aName).text.length)
  rw [← text] at free
  have whole := @Writes.member rules place _ e ((Lexeme.symbol [] .dot Expect.aName).token behind) _
    (h gap place at_) rfl rfl (checkMember_of_free free) r
  rw [text] at whole
  exact whole

/-- An access by index is restored if what is accessed and the index are. -/
theorem Expr.restored_index (r : Range) {e i : Expr} (h : e.SubjectRestored rules)
    (hi : i.Restored rules) : (Expr.index r e i).Restored rules := by
  refine .of_writes rfl fun gap place at_ => ?_
  rw [Expr.lexemes, stepsFrom_append]
  generalize at_ + (spelled _).length = behind
  rw [stepsFrom, stepsFrom_append]
  exact (h gap place at_).index (hi.writes [] .plain _).toExpr rfl rfl r

/-- Whether an expression is a number belongs to its content. -/
theorem isNumber_of_view {e e' : Expr} (h : e'.view = e.view) : e'.isNumber = e.isNumber := by
  cases e <;> cases e' <;> simp [Expr.view] at h <;> rfl

/-- A prefix operator is restored if it is not folded into its operand. -/
theorem Expr.restored_unary (r : Range) {op : UnaryOp} {e : Expr} (h : e.Restored rules)
    (other : op = .not ∨ e.isNumber = false) : (Expr.unary r op e).Restored rules := by
  refine .of_writes rfl fun gap place at_ => ?_
  rw [Expr.lexemes, stepsFrom]
  have operand := h.operand [] .plain
    (at_ + (Lexeme.symbol gap op.symbol Expect.expr).text.length)
  obtain ⟨e', r', view, whole⟩ := @Writes.sign rules _ place _
    ⟨op, (Lexeme.symbol gap op.symbol Expect.expr).token at_⟩ operand (by cases op <;> rfl)
  have same : (Build.applySign r' op e').view = (Expr.unary r op e).view := by
    rw [Build.applySign_other r' (by rwa [isNumber_of_view view])]
    simp [Expr.view, view]
  rw [same] at whole
  exact whole

/-- A binary operator is restored if both operands are. -/
theorem Expr.restored_binary (r : Range) (op : BinaryOp) {left right : Expr}
    (hl : left.Restored rules) (hr : right.Restored rules) :
    (Expr.binary r op left right).Restored rules := by
  have chained : ∀ gap place at_ sign, ∃ t, t.strength = op.precedence ∧
      Chained rules place sign (stepsFrom at_ ((Expr.binary r op left right).lexemes gap place))
        (Expr.binary r op left right).view t := by
    intro gap place at_ sign
    rw [Expr.lexemes, stepsFrom_append]
    -- where the right operand stands does not matter, only that it is behind the left one
    generalize at_ + (spelled _).length = behind
    obtain ⟨l, strength, -, left⟩ := hl.tree op false gap place at_ sign
    obtain ⟨t, -, stronger, right⟩ := hr.tree op true space .plain
      (behind + (Lexeme.symbol space op.symbol Expect.expr).text.length)
      ((Lexeme.symbol space op.symbol Expect.expr).token behind)
    exact ⟨.node op l t, rfl, left.node right (by cases op <;> rfl) strength (stronger rfl) r⟩
  refine ⟨fun gap place at_ => ?_, fun _ => chained⟩
  obtain ⟨t, -, chained⟩ := chained gap place at_ ⟨.name, [], 0⟩
  exact chained.writes

/-- A choice is restored if its parts are. -/
theorem Expr.restored_ifThenElse (r : Range) {a b c : Expr} (ha : a.Restored rules)
    (hb : b.Restored rules) (hc : c.Restored rules) :
    (Expr.ifThenElse r a b c).Restored rules := by
  refine .of_writes rfl fun gap place at_ => ?_
  rw [Expr.lexemes, stepsFrom, stepsFrom_append, stepsFrom, stepsFrom_append, stepsFrom]
  obtain ⟨σa, a', scripta, -, builta, viewa⟩ := (ha.writes space .plain
    (at_ + (Lexeme.keyword gap .kwIf Expect.expr).text.length)).toExpr
  generalize _ + (spelled (a.lexemes space .plain)).length = behind
  obtain ⟨σb, b', scriptb, -, builtb, viewb⟩ := (hb.writes space .plain
    (behind + (Lexeme.keyword space .kwThen Expect.expr).text.length)).toExpr
  generalize _ + (spelled (b.lexemes space .plain)).length = behind'
  obtain ⟨σc, c', scriptc, -, builtc, viewc⟩ := (hc.writes space .plain
    (behind' + (Lexeme.keyword space .kwElse Expect.expr).text.length)).toExpr
  refine ⟨_, _, (Script.choice _ _ _ rfl rfl rfl scripta scriptb scriptc).toExpr,
    by simp [Expr.level],
    by rw [Build.expr, builta, builtb, builtc]; rfl, ?_⟩
  simp [Expr.view, viewa, viewb, viewc]

/-- A pair is restored if its parts are. -/
theorem Expr.restored_pair (r : Range) {left right : Expr} (hl : left.Restored rules)
    (hr : right.Restored rules) : (Expr.pair r left right).Restored rules := by
  refine .of_writes rfl fun gap place at_ => ?_
  rw [Expr.lexemes, stepsFrom, stepsFrom_append, stepsFrom, stepsFrom_append]
  obtain ⟨σl, l, scriptl, -, builtl, viewl⟩ := (hl.writes [] .plain
    (at_ + (Lexeme.symbol gap .parenOpen Expect.expr).text.length)).toExpr
  generalize _ + (spelled (left.lexemes [] .plain)).length = behind
  obtain ⟨σr, r', scriptr, -, builtr, viewr⟩ := (hr.writes space .plain
    (behind + (Lexeme.symbol [] .comma Expect.expr).text.length)).toExpr
  refine ⟨_, _, .pair _ _ _ rfl rfl rfl scriptl scriptr, fun _ => rfl,
    by rw [Build.expr, builtl, builtr]; rfl, ?_⟩
  simp [Expr.view, viewl, viewr]

/-! ## Lists

Items are compared with what they are the text of by `List.Forall₂`, for a relation that each kind
of list has its own of: `Piece.Restores`, `ItemPiece.Restores`, `MemberPiece.Restores`. -/

section lists

variable {α β : Type} {R : α → β → Prop} {steps : β → List Step} {after : Expect} {as : List α}
  {items : List (List Lexeme)} {gap : List Char}

/-- Wherever an item stands, something writes it that is related to what it is the text of. -/
def ItemRestored (R : α → β → Prop) (steps : β → List Step) (item : List Lexeme) (a : α) : Prop :=
  ∀ at_, ∃ b, R a b ∧ steps b = stepsFrom at_ item

/-- Items behind the first, each with a comma in front, are written in order. -/
theorem more_restored (each : List.Forall₂ (ItemRestored R steps) items as) (at_ : Nat) :
    ∃ bs, List.Forall₂ R as bs ∧ More after (bs.map steps)
      (stepsFrom at_ (items.flatMap fun more => .symbol [] .comma after :: more)) := by
  induction each generalizing at_ with
  | nil => exact ⟨[], .nil, .nil⟩
  | cons here _ ih =>
    obtain ⟨b, first, written⟩ := here (at_ + (Lexeme.symbol [] .comma after).text.length)
    obtain ⟨bs, rest, followed⟩ := ih _
    refine ⟨b :: bs, .cons first rest, ?_⟩
    rw [List.flatMap_cons, List.cons_append, stepsFrom, stepsFrom_append, ← written]
    exact .cons _ rfl followed

/-- Items with commas between them are written in order. -/
theorem separated_restored (each : List.Forall₂ (ItemRestored R steps) items as) (at_ : Nat) :
    ∃ bs, List.Forall₂ R as bs ∧
      Separated after (bs.map steps) (stepsFrom at_ (separated after items)) := by
  cases each with
  | nil => exact ⟨[], .nil, .nil⟩
  | cons here others =>
    obtain ⟨b, first, written⟩ := here at_
    obtain ⟨bs, rest, followed⟩ := more_restored others _
    refine ⟨b :: bs, .cons first rest, ?_⟩
    rw [separated, stepsFrom_append, ← written]
    exact .cons followed

end lists

/-- A piece that writes an expression with the content of another. -/
def Parser.Piece.Restores (rules : Rules) (e : Expr) (p : Piece) : Prop :=
  Script .expr .plain p.expr p.steps ∧ ∃ e', Build.expr rules p.expr = .ok e' ∧ e'.view = e.view

/-- An expression inside another is written by a piece. -/
theorem Expr.Restored.piece {e : Expr} (h : e.Restored rules) (gap : List Char) :
    ItemRestored (Piece.Restores rules) Piece.steps (e.lexemes gap .plain) e := by
  intro at_
  obtain ⟨σ, e', script, -, built, view⟩ := (h.writes gap .plain at_).toExpr
  exact ⟨⟨σ, _⟩, ⟨script, e', built, view⟩, rfl⟩

/-- Each expression of a list is written by a piece. -/
theorem exprLexemes_restored {es : List Expr} (each : ∀ e ∈ es, e.Restored rules)
    (gap : List Char) :
    List.Forall₂ (ItemRestored (Piece.Restores rules) Piece.steps) (exprLexemes es gap) es := by
  induction es generalizing gap with
  | nil => exact .nil
  | cons e es ih =>
    obtain ⟨here, others⟩ := List.forall_mem_cons.1 each
    exact .cons (here.piece gap) (ih others space)

/-- Expressions written by pieces are built. -/
theorem exprs_restored {es : List Expr} {ps : List Parser.Piece}
    (h : List.Forall₂ (Piece.Restores rules) es ps) :
    ∃ es', Build.exprs rules (ps.map Piece.expr) = .ok es' ∧ viewExprs es' = viewExprs es := by
  induction h with
  | nil => exact ⟨[], rfl, rfl⟩
  | cons first _ ih =>
    obtain ⟨-, e', built, view⟩ := first
    obtain ⟨es', builts, views⟩ := ih
    refine ⟨e' :: es', ?_, by rw [viewExprs, viewExprs, view, views]⟩
    rw [List.map_cons, Build.exprs, built, builts]
    rfl

/-- An array is restored if its items are. -/
theorem Expr.restored_array (r : Range) {items : List Expr}
    (each : ∀ e ∈ items, e.Restored rules) : (Expr.array r items).Restored rules := by
  refine .of_writes rfl fun gap place at_ => ?_
  rw [Expr.lexemes, stepsFrom, stepsFrom_append]
  obtain ⟨ps, pieces, commas⟩ := @separated_restored _ _ _ _ Expect.exprOrBracket _ _
    (exprLexemes_restored each [])
    (at_ + (Lexeme.symbol gap .bracketOpen Expect.exprOrBracket).text.length)
  obtain ⟨es', built, views⟩ := exprs_restored pieces
  refine ⟨_, _, .array _ _ ps rfl rfl (forall_of_forall₂ pieces fun _ _ _ h => h.1) commas,
    fun _ => rfl, by rw [Build.expr, built]; rfl, ?_⟩
  rw [Expr.view, Expr.view, views]

/-- A call is restored if its arguments are; its name is not checked. -/
theorem Expr.restored_apply (r : Range) {function : String} {arguments : List Expr}
    (each : ∀ e ∈ arguments, e.Restored rules) :
    (Expr.apply r function arguments).Restored rules := by
  refine .of_writes rfl fun gap place at_ => ?_
  have text := text_name gap function place.afterName at_
  rw [Expr.lexemes, stepsFrom, stepsFrom, stepsFrom_append]
  obtain ⟨ps, pieces, commas⟩ := @separated_restored _ _ _ _ Expect.expr _ _
    (exprLexemes_restored each []) (at_ + (Lexeme.name gap function place.afterName).text.length +
      (Lexeme.symbol [] .parenOpen Expect.exprOrParen).text.length)
  obtain ⟨es', built, views⟩ := exprs_restored pieces
  refine ⟨_, _, .apply ((Lexeme.name gap function place.afterName).token at_) _ _ ps rfl rfl rfl
    (forall_of_forall₂ pieces fun _ _ _ h => h.1) commas,
    fun _ => rfl, by rw [Build.expr, built]; rfl, ?_⟩
  rw [Expr.view, Expr.view, views]
  show View.node _ [("function_name", .name (Token.text _)), _] = _
  rw [text]

/-! ## Maps and structs

-/

/-- A key and value of a map whose expressions restore those of another. -/
def Parser.ItemPiece.Restores (rules : Rules) (item : Expr × Expr) (p : ItemPiece) : Prop :=
  p.colon.kind = .symbol .colon ∧ p.key.Restores rules item.1 ∧ p.value.Restores rules item.2

/-- Each entry of a map is written by a piece. -/
theorem pairLexemes_restored {items : List (Expr × Expr)}
    (each : ∀ i ∈ items, i.1.Restored rules ∧ i.2.Restored rules) (gap : List Char) :
    List.Forall₂ (ItemRestored (ItemPiece.Restores rules) ItemPiece.steps)
      (pairLexemes items gap) items := by
  induction items generalizing gap with
  | nil => exact .nil
  | cons item items ih =>
    obtain ⟨⟨hkey, hvalue⟩, others⟩ := List.forall_mem_cons.1 each
    refine .cons (fun at_ => ?_) (ih others space)
    obtain ⟨key, first, written⟩ := hkey.piece gap at_
    rw [stepsFrom_append, stepsFrom]
    generalize at_ + (spelled (item.1.lexemes gap .plain)).length = behind
    obtain ⟨value, second, written'⟩ := hvalue.piece space
      (behind + (Lexeme.symbol [] .colon Expect.expr).text.length)
    refine ⟨⟨key, (Lexeme.symbol [] .colon Expect.expr).token behind, value⟩,
      ⟨rfl, first, second⟩, ?_⟩
    rw [ItemPiece.steps, written, written']
    rfl

/-- Entries written by pieces are built. -/
theorem pairs_restored {items : List (Expr × Expr)} {ps : List ItemPiece}
    (h : List.Forall₂ (ItemPiece.Restores rules) items ps) :
    ∃ items', Build.pairs rules (ps.map ItemPiece.item) = .ok items' ∧
      viewPairs items' = viewPairs items := by
  induction h with
  | nil => exact ⟨[], rfl, rfl⟩
  | cons first _ ih =>
    obtain ⟨-, ⟨-, key, builtKey, viewKey⟩, -, value, builtValue, viewValue⟩ := first
    obtain ⟨items', builts, views⟩ := ih
    refine ⟨(key, value) :: items', ?_, by rw [viewPairs, viewPairs, viewKey, viewValue, views]⟩
    rw [List.map_cons, ItemPiece.item, Build.pairs, builtKey, builtValue, builts]
    rfl

/-- A map is restored if its keys and values are. -/
theorem Expr.restored_map (r : Range) {items : List (Expr × Expr)}
    (each : ∀ i ∈ items, i.1.Restored rules ∧ i.2.Restored rules) :
    (Expr.map r items).Restored rules := by
  refine .of_writes rfl fun gap place at_ => ?_
  rw [Expr.lexemes, stepsFrom, stepsFrom_append]
  obtain ⟨ps, pieces, commas⟩ := @separated_restored _ _ _ _ Expect.exprOrBrace _ _
    (pairLexemes_restored each [])
    (at_ + (Lexeme.symbol gap .braceOpen Expect.exprOrBrace).text.length)
  obtain ⟨items', built, views⟩ := pairs_restored pieces
  refine ⟨_, _, .map _ _ ps rfl rfl (forall_of_forall₂ pieces fun _ _ _ h => h.1)
    (forall_of_forall₂ pieces fun _ _ _ h => h.2.1.1)
    (forall_of_forall₂ pieces fun _ _ _ h => h.2.2.1) commas,
    fun _ => rfl, by rw [Build.expr, built]; rfl, ?_⟩
  rw [Expr.view, Expr.view, views]

/-- A member of a struct that restores one under a bare key. -/
def Parser.MemberPiece.Restores (rules : Rules) (member : Text × Expr) (p : MemberPiece) : Prop :=
  (∃ t : Token, p.key = .word t ∧ t.kind = .name ∧ .ofString t.text = member.1) ∧
    member.1.shown ∉ rules.reserved ∧ p.colon.kind = .symbol .colon ∧
      p.value.Restores rules member.2

/-- Each member of a struct is written by a piece. -/
theorem memberLexemes_restored {members : List (Text × Expr)}
    (each : ∀ m ∈ members, (m.1.Plain ∧ m.1.shown ∉ rules.reserved) ∧ m.2.Restored rules)
    (gap : List Char) :
    List.Forall₂ (ItemRestored (MemberPiece.Restores rules) MemberPiece.steps)
      (memberLexemes members gap) members := by
  induction members generalizing gap with
  | nil => exact .nil
  | cons member members ih =>
    obtain ⟨⟨⟨plain, key⟩, restored⟩, others⟩ := List.forall_mem_cons.1 each
    refine .cons (fun at_ => ?_) (ih others space)
    have text := text_name gap member.1.shown Expect.aColon at_
    rw [stepsFrom, stepsFrom]
    generalize at_ + (Lexeme.name gap member.1.shown Expect.aColon).text.length = behind
    obtain ⟨value, second, written⟩ := restored.piece space
      (behind + (Lexeme.symbol [] .colon Expect.expr).text.length)
    refine ⟨⟨.word ((Lexeme.name gap member.1.shown Expect.aColon).token at_),
      (Lexeme.symbol [] .colon Expect.expr).token behind, value⟩,
      ⟨⟨_, rfl, rfl, ?_⟩, key, rfl, second⟩, ?_⟩
    · rw [text, plain.ofString_shown]
    · rw [MemberPiece.steps, written]
      rfl

/-- Members written by pieces are built. -/
theorem members_restored {members : List (Text × Expr)} {ps : List MemberPiece}
    (h : List.Forall₂ (MemberPiece.Restores rules) members ps) :
    ∃ members', Build.members rules (ps.map MemberPiece.member) = .ok members' ∧
      viewMembers members' = viewMembers members := by
  induction h with
  | nil => exact ⟨[], rfl, rfl⟩
  | @cons member p members ps first _ ih =>
    obtain ⟨⟨t, key, -, text⟩, free, -, -, value, built, view⟩ := first
    obtain ⟨members', builts, views⟩ := ih
    have named : p.member = (.word (word t), p.value.expr) := by
      rw [MemberPiece.member, key]
      rfl
    have allowed : Build.checkName rules (word t) = .ok () :=
      checkName_of_unreserved (by rw [← text, Text.shown_ofString] at free; exact free)
    refine ⟨(.ofString t.text, value) :: members', ?_, by
      rw [viewMembers, viewMembers, view, views, text]⟩
    rw [List.map_cons, named, Build.members, built, allowed, builts]
    rfl

/-- The word before the members of a struct names its type, unless it says that there is none. -/
theorem structName_eq_ok {w : Surface.Word} {typeName : Option String}
    (text : w.text = typeName.getD Build.objectWord)
    (named : ∀ s ∈ typeName, s ∉ rules.reserved ∧ s ≠ Build.objectWord) :
    Build.structName rules w = .ok typeName := by
  unfold Build.structName
  cases typeName with
  | none => exact if_pos text
  | some s =>
    have word : w.text = s := text
    obtain ⟨unreserved, other⟩ := named s rfl
    rw [if_neg (by rw [word]; exact other), word,
      checkName_of_unreserved (by rw [word]; exact unreserved)]
    rfl

/-- A struct is restored if its members are and its names may be written. -/
theorem Expr.restored_struct (r : Range) {members : List (Text × Expr)}
    {typeName : Option String}
    (named : ∀ s ∈ typeName, s ∉ rules.reserved ∧ s ≠ Build.objectWord)
    (each : ∀ m ∈ members, (m.1.Plain ∧ m.1.shown ∉ rules.reserved) ∧ m.2.Restored rules) :
    (Expr.struct r members typeName).Restored rules := by
  refine .of_writes rfl fun gap place at_ => ?_
  have text := text_name gap (typeName.getD "object") place.afterName at_
  rw [Expr.lexemes, stepsFrom, stepsFrom, stepsFrom_append]
  obtain ⟨ps, pieces, commas⟩ := @separated_restored _ _ _ _ Expect.members _ _
    (memberLexemes_restored each [])
    (at_ + (Lexeme.name gap (typeName.getD "object") place.afterName).text.length +
      (Lexeme.symbol space .braceOpen Expect.members).text.length)
  obtain ⟨members', built, views⟩ := members_restored pieces
  have fits : ∀ p ∈ ps, p.key.Fits ∧ p.colon.kind = .symbol .colon := by
    refine forall_of_forall₂ pieces ?_
    rintro m - p ⟨⟨t, key, kind, -⟩, -, colon, -⟩
    rw [key]
    exact ⟨kind, colon⟩
  have struct_ := structName_eq_ok
    (w := word ((Lexeme.name gap (typeName.getD "object") place.afterName).token at_)) text named
  -- the range is where the tokens stand, and no part of the content
  have whole : ∀ range, Build.expr rules (.struct range
      (word ((Lexeme.name gap (typeName.getD "object") place.afterName).token at_))
      (ps.map MemberPiece.member)) = .ok (.struct range members' typeName) := by
    intro range
    rw [Build.expr, built]
    show (do return Expr.struct _ members' (← Build.structName rules _) : Checked Expr) = _
    rw [struct_]
    rfl
  refine ⟨_, _, .struct
    ((Lexeme.name gap (typeName.getD "object") place.afterName).token at_) _ _ ps rfl rfl rfl fits
    (forall_of_forall₂ pieces fun _ _ _ h => h.2.2.2.1) commas, fun _ => rfl, whole _, ?_⟩
  rw [Expr.view, Expr.view, views]

/-! ## Strings and placeholders -/

/-- The token of the name of an option says what it is the name of. -/
theorem optionName_fits (gap : List Char) (s : String) :
    (Lexeme.optionName gap s).chars = s.toList ∧
      optionName? (Lexeme.optionName gap s).kind = some (Lexeme.optionName gap s).after := by
  unfold Lexeme.optionName
  split
  · rename_i eq
    rw [eq]
    exact ⟨rfl, rfl⟩
  · split
    · rename_i eq
      rw [eq]
      exact ⟨rfl, rfl⟩
    · exact ⟨rfl, rfl⟩

/-- The tokens of an option write it. -/
theorem option_restored {name : String} {value : Text} (h : Verbatim (name, value))
    (N : CharacterNames) (gap : List Char) (at_ : Nat) :
    ∃ o : OptionPiece, o.Fits ∧ o.steps = stepsFrom at_
        [.optionName gap name, .symbol [] .equal Expect.optionValue, .quoted value] ∧
      ∃ range, Build.placeholderOption N o.option = .ok (name, value, range) := by
  obtain ⟨known, plain, verbatim⟩ := h
  obtain ⟨chars, kind⟩ := optionName_fits gap name
  rw [stepsFrom, stepsFrom, stepsFrom]
  generalize at_ + (Lexeme.optionName gap name).text.length = equal
  generalize equal + (Lexeme.symbol [] .equal Expect.optionValue).text.length = mark
  refine ⟨⟨(Lexeme.optionName gap name).step at_,
    (Lexeme.symbol [] .equal Expect.optionValue).token equal,
    .quoted .double ((Lexeme.quoted value).token mark)⟩, ⟨kind, rfl, rfl⟩, rfl, ?_⟩
  have raw : (Parser.quoted ((Lexeme.quoted value).token mark)).raw = value.chars := by
    show (('"' :: (value.chars ++ ['"'])).drop 1).dropLast = value.chars
    simp
  have text : (word ((Lexeme.optionName gap name).step at_).token).text = name := by
    show String.ofList (Lexeme.optionName gap name).chars = name
    rw [chars, String.ofList_toList]
  have decoded : Escape.decode value.chars N = some value := by
    rw [Escape.decode_plain fun c hc => (verbatim c hc).2.1, plain.ofChars_chars]
  simp only [OptionPiece.option, Build.placeholderOption, ValueToken.value, Build.optionText,
    Build.quotedText, Build.decodeText, raw, decoded, text]
  exact ⟨_, if_pos (by simpa using known)⟩

/-- The tokens of options write them. -/
theorem options_restored {options : PlaceholderOptions} (plain : ∀ o ∈ options, Verbatim o)
    (N : CharacterNames) (gap : List Char) (at_ : Nat) :
    ∃ os : List OptionPiece, (∀ o ∈ os, o.Fits) ∧
      os.flatMap OptionPiece.steps = stepsFrom at_ (optionLexemes options gap) ∧
      ∃ entries, (os.map OptionPiece.option).mapM (Build.placeholderOption N) = .ok entries ∧
        entries.map (fun entry => (entry.1, entry.2.1)) = options := by
  induction options generalizing gap at_ with
  | nil => exact ⟨[], by simp, rfl, [], rfl, rfl⟩
  | cons option options ih =>
    obtain ⟨verbatim, others⟩ := List.forall_mem_cons.1 plain
    have first : optionLexemes (option :: options) gap =
        [.optionName gap option.1, .symbol [] .equal Expect.optionValue, .quoted option.2] ++
          optionLexemes options space := rfl
    rw [first, stepsFrom_append]
    obtain ⟨o, here, written, range, built⟩ := option_restored verbatim N gap at_
    obtain ⟨os, fits, writtens, entries, builts, eq⟩ := ih others space (at_ + (spelled _).length)
    refine ⟨o :: os, List.forall_mem_cons.2 ⟨here, fits⟩, ?_,
      (option.1, option.2, range) :: entries, ?_, by rw [List.map_cons, eq]⟩
    · rw [List.flatMap_cons, written, writtens]
    · rw [List.map_cons, List.mapM_cons, built, builts]
      rfl

/-- Entries under distinct keys are all collected. -/
theorem distinct_of_nodup {α : Type} {repeated : String → Violation} {done : List (String × α)}
    {entries : List (String × α × Range)}
    (nodup : (done.map Prod.fst ++ entries.map Prod.fst).Nodup) :
    Build.distinct repeated done entries =
      .ok (done ++ entries.map fun entry => (entry.1, entry.2.1)) := by
  induction entries generalizing done with
  | nil => simp [Build.distinct]
  | cons entry entries ih =>
    obtain ⟨key, value, r⟩ := entry
    have new : (done.any fun entry => entry.1 == key) = false := by
      rw [List.any_eq_false]
      intro e he same
      rw [List.nodup_append] at nodup
      exact nodup.2.2 e.1 (List.mem_map_of_mem he) key (by simp) (by simpa using same)
    rw [Build.distinct, new, if_neg (by simp), ih (by simpa using nodup)]
    simp

/-- Wherever the tokens of a placeholder stand, they write it. -/
def Placeholder.Restored (rules : Rules) (p : Placeholder) : Prop :=
  ∀ at_, ∃ opener close hole, (PartPiece.hole opener close hole).Fits (.string .double) ∧
    Script .expr .placeholder hole.body.expr hole.body.steps ∧
    (PartPiece.hole opener close hole).steps (.string .double) = stepsFrom at_ p.lexemes ∧
    ∃ p', Build.placeholder rules hole.placeholder = .ok p' ∧ p'.view = p.view

theorem Placeholder.restored {p : Placeholder} (here : (Node.placeholder p).Writable rules)
    (inner : p.expr.Restored rules) : p.Restored rules := by
  obtain ⟨r, options, e⟩ := p
  change e.Restored rules at inner
  have plain : ∀ o ∈ options, Verbatim o := here.1
  have nodup : (options.map Prod.fst).Nodup := here.2.1
  intro at_
  rw [Placeholder.lexemes, stepsFrom, stepsFrom_append, stepsFrom_append]
  generalize at_ + Lexeme.opening.text.length = start
  obtain ⟨os, fits, written, entries, collected, eq⟩ := options_restored plain rules.names [] start
  generalize start + (spelled (optionLexemes options [])).length = body
  obtain ⟨σ, e', script, -, built, view⟩ := (inner.writes (if options = [] then [] else space)
    .placeholder body).toExpr
  generalize body + (spelled _).length = behind
  -- no name is repeated, so collecting the options keeps them all
  have keys : entries.map Prod.fst = options.map Prod.fst := by
    rw [← eq, List.map_map]
    rfl
  have distinct := @distinct_of_nodup _ .repeatedOption [] entries (by rw [keys]; exact nodup)
  rw [eq] at distinct
  have whole : ∀ range, Build.placeholder rules (.mk range (os.map OptionPiece.option) σ) =
      .ok (.mk range options e') := by
    intro range
    rw [Build.placeholder, collected, built]
    show (do return Placeholder.mk range (← Build.distinct .repeatedOption [] entries) e' :
      Checked Placeholder) = _
    rw [distinct]
    rfl
  refine ⟨Lexeme.opening.token at_,
    (Lexeme.symbol [] .braceClose (Expect.inString .double)).token behind, ⟨os, ⟨σ, _⟩⟩,
    ⟨rfl, rfl, fits⟩, script, ?_, _, whole _, ?_⟩
  · rw [PartPiece.steps, Hole.steps, written]
    simp [stepsFrom, Lexeme.token, Lexeme.step, Lexeme.opening, Lexeme.symbol, Template.string]
  · rw [Placeholder.view, Placeholder.view, view]

/-- The tokens of the parts of a string write them. -/
theorem parts_restored {parts : List Part}
    (plain : ∀ text : Text, .text text ∈ parts → text.Plain ∧ Unopened text.chars)
    (each : ∀ p, .placeholder p ∈ parts → p.Restored rules) (at_ : Nat) :
    ∃ ps : List PartPiece, (∀ p ∈ ps, p.Fits (.string .double)) ∧
      (∀ p ∈ ps, ∀ x ∈ p.inner, Script .expr .placeholder x.expr x.steps) ∧
      ps.flatMap (PartPiece.steps (.string .double)) = stepsFrom at_ (partLexemes parts) ∧
      ∃ raw parts', Build.rawParts rules (ps.map PartPiece.part) = .ok raw ∧
        Build.decodeParts rules.names raw = .ok parts' ∧ viewParts parts' = viewParts parts := by
  induction parts generalizing at_ with
  | nil => exact ⟨[], by simp, by simp, rfl, [], [], rfl, rfl, rfl⟩
  | cons part parts ih =>
    have behind := ih (fun text hp => plain text (by simp [hp])) fun p hp => each p (by simp [hp])
    cases part with
    | text text =>
      rw [partLexemes, stepsFrom]
      obtain ⟨ps, fits, inner, written, raw, parts', hraw, built, views⟩ :=
        behind (at_ + (Lexeme.literal text).text.length)
      refine ⟨.text ((Lexeme.literal text).token at_) :: ps, List.forall_mem_cons.2 ⟨rfl, fits⟩,
        List.forall_mem_cons.2 ⟨by simp [PartPiece.inner], inner⟩, ?_,
        .text ((Lexeme.literal text).token at_).range (renderText text).chars :: raw,
        .text text :: parts', ?_, ?_, by rw [viewParts, viewParts, views]⟩
      · rw [List.flatMap_cons, written]
        rfl
      · rw [List.map_cons, PartPiece.part, Build.rawParts, hraw]
        rfl
      -- literal text is written with escapes that decode to it
      · obtain ⟨whole, unopened⟩ := plain text (by simp)
        have decoded := decode_renderText unopened rules.names
        rw [whole.ofChars_chars] at decoded
        rw [Build.decodeParts, Build.decodeText, decoded, built]
        rfl
    | placeholder p =>
      rw [partLexemes, stepsFrom_append]
      obtain ⟨opener, close, hole, fit, script, steps, p', here, view⟩ := each p (by simp) at_
      obtain ⟨ps, fits, inner, written, raw, parts', hraw, built, views⟩ :=
        behind (at_ + (spelled p.lexemes).length)
      refine ⟨.hole opener close hole :: ps, List.forall_mem_cons.2 ⟨fit, fits⟩,
        List.forall_mem_cons.2 ⟨by simpa [PartPiece.inner] using script, inner⟩, ?_,
        .placeholder p' :: raw, .placeholder p' :: parts', ?_, ?_,
        by rw [viewParts, viewParts, view, views]⟩
      · rw [List.flatMap_cons, steps, written]
      · rw [List.map_cons, PartPiece.part, Build.rawParts, here, hraw]
        rfl
      · rw [Build.decodeParts, built]
        rfl

/-- A string is restored if its placeholders are and its literal texts open none. -/
theorem Expr.restored_string (r : Range) {parts : List Part}
    (plain : ∀ text : Text, .text text ∈ parts → text.Plain ∧ Unopened text.chars)
    (each : ∀ p, .placeholder p ∈ parts → p.Restored rules) :
    (Expr.string r parts).Restored rules := by
  refine .of_writes rfl fun gap place at_ => ?_
  rw [Expr.lexemes, stepsFrom, stepsFrom_append]
  obtain ⟨ps, fits, inner, written, raw, parts', hraw, built, views⟩ := parts_restored plain each
    (at_ + (Lexeme.mark gap (Expect.inString .double)).text.length)
  have whole : ∀ range, Build.expr rules (.string range (ps.map PartPiece.part)) =
      .ok (.string range parts') := by
    intro range
    rw [Build.expr, hraw]
    show (do return Expr.string range (← Build.decodeParts rules.names raw) : Checked Expr) = _
    rw [built]
    rfl
  rw [← written]
  refine ⟨_, _, .string .double _ _ ps rfl rfl fits inner, fun _ => rfl, whole _, ?_⟩
  rw [Expr.view, Expr.view, views]

/-! ## Renderings without surrogates

A `Text` may hold surrogates, which no source has. For each function of the renderer there is one
lemma: what it writes is plain if what it is given is. -/

/-- What is written of a text has no surrogates just if the text has none. -/
theorem plain_renderText {text : Text} : (renderText text).Plain ↔ text.Plain := by
  fun_induction renderText text with
  | case1 => exact Iff.rfl
  | case2 rest ih | case3 rest _ ih => simp only [Text.plain_char, ih]
  | case4 rest _ _ ih | case5 rest _ _ _ ih => simp only [Text.plain_char, ih]
  | case6 p rest _ _ _ _ either ih =>
    rcases either.1 with rfl | rfl <;> simp only [Text.plain_char, ih]
  | case7 p rest _ _ _ _ _ ih => rw [Text.plain_cons, ih, ← Text.plain_cons]

/-- Parentheses add no surrogates. -/
theorem plain_parenthesize (parens : Bool) {t : Text} (plain : t.Plain) :
    (parenthesize parens t).Plain := by
  cases parens with
  | false => exact plain
  | true => simp [parenthesize, Text.plain_ofString, plain]

section Lists

variable {es : List Expr} {items : List (Expr × Expr)} {members : List (Text × Expr)}

/-- The texts of expressions are plain if each is. -/
theorem plain_renderExprs (each : ∀ e ∈ es, e.render.Plain) : ∀ t ∈ renderExprs es, t.Plain := by
  induction es with
  | nil => simp [renderExprs]
  | cons e es ih =>
    obtain ⟨here, others⟩ := List.forall_mem_cons.1 each
    exact List.forall_mem_cons.2 ⟨here, ih others⟩

/-- The texts of entries are plain if keys and values are. -/
theorem plain_renderPairs (each : ∀ i ∈ items, i.1.render.Plain ∧ i.2.render.Plain) :
    ∀ t ∈ renderPairs items, t.Plain := by
  induction items with
  | nil => simp [renderPairs]
  | cons item items ih =>
    obtain ⟨here, others⟩ := List.forall_mem_cons.1 each
    refine List.forall_mem_cons.2 ⟨?_, ih others⟩
    simp [Text.plain_ofString, here]

/-- The texts of members are plain if keys and values are. -/
theorem plain_renderMembers (each : ∀ m ∈ members, m.1.Plain ∧ m.2.render.Plain) :
    ∀ t ∈ renderMembers members, t.Plain := by
  induction members with
  | nil => simp [renderMembers]
  | cons m members ih =>
    obtain ⟨here, others⟩ := List.forall_mem_cons.1 each
    refine List.forall_mem_cons.2 ⟨?_, ih others⟩
    simp [Text.plain_ofString, here]

/-- The texts of options are plain if their values are. -/
theorem plain_renderOptions {options : PlaceholderOptions} (each : ∀ o ∈ options, o.2.Plain) :
    ∀ t ∈ renderOptions options, t.Plain := by
  intro t mem
  obtain ⟨o, ho, rfl⟩ := List.mem_map.1 mem
  simp [Text.plain_ofString, each o ho]

/-- The text of a string is plain if its literal texts and placeholders are. -/
theorem plain_renderParts {parts : List Part}
    (texts : ∀ text : Text, .text text ∈ parts → text.Plain)
    (holes : ∀ p, .placeholder p ∈ parts → p.render.Plain) :
    Text.Plain (renderParts parts).flatten := by
  induction parts with
  | nil => exact Text.plain_nil
  | cons part parts ih =>
    have rest := ih (fun text mem => texts text (List.mem_cons_of_mem _ mem))
      fun p mem => holes p (List.mem_cons_of_mem _ mem)
    cases part with
    | text text =>
      rw [renderParts, List.flatten_cons, Text.plain_append]
      exact ⟨plain_renderText.2 (texts text List.mem_cons_self), rest⟩
    | placeholder p =>
      rw [renderParts, List.flatten_cons, Text.plain_append]
      exact ⟨holes p List.mem_cons_self, rest⟩

end Lists

/-- No text of a node has a surrogate, whatever is below it. -/
def Node.Plain : Node → Prop
  | .expr (.string _ parts) => ∀ text : Text, .text text ∈ parts → text.Plain
  | .expr (.struct _ members _) => ∀ m ∈ members, m.1.Plain
  | .placeholder p => ∀ o ∈ p.options, o.2.Plain
  | _ => True

/-- The rendering of a node that is part of an expression has no surrogates. -/
def Node.PlainlyRendered : Node → Prop
  | .expr e => e.render.Plain
  | .placeholder p => p.render.Plain
  | _ => True

/-- A writable node has no surrogates of its own. -/
theorem Node.Writable.plain {n : Node} (h : n.Writable rules) : n.Plain := by
  cases n with
  | placeholder p => exact fun o ho => (h.1 o ho).2.1
  | expr e =>
    cases e with
    | string r parts => exact fun text mem => (h.1 text mem).2.1
    | struct r members typeName => exact fun m hm => (h.1 m hm).1
    | _ => trivial
  | _ => trivial

/-- The text of a placeholder is plain if its options and its expression are. -/
theorem Placeholder.plain_render {p : Placeholder} (here : (Node.placeholder p).Plain)
    (inner : p.expr.render.Plain) : p.render.Plain := by
  obtain ⟨r, options, e⟩ := p
  have texts : ∀ t ∈ renderOptions options ++ [e.render], t.Plain := by
    intro t mem
    rcases List.mem_append.1 mem with option | only
    · exact plain_renderOptions here t option
    · rwa [List.mem_singleton.1 only]
  show Text.Plain (Placeholder.render _)
  simp [Placeholder.render, Text.plain_ofString, Text.plain_join " " texts]

/-- A rendering has a surrogate only from a text below it. -/
theorem Node.Everywhere.plainlyRendered {n : Node} (h : n.Everywhere Node.Plain) :
    n.PlainlyRendered := by
  have name := Text.plain_ofString
  induction h with
  | @intro n here _ ih =>
    cases n with
    | placeholder p => exact p.plain_render here (ih (.expr p.expr) (by simp [Node.children]))
    | expr e =>
      have child : ∀ e', Node.expr e' ∈ e.children → e'.render.Plain :=
        fun e' mem => ih (.expr e') mem
      show e.render.Plain
      cases e with
      | boolean | int | float | null | ident => exact name _
      | string r parts =>
        have inner := plain_renderParts here fun p hp =>
          ih (.placeholder p) (mem_partNodes.2 ⟨p, hp, rfl⟩)
        simp [Expr.render, name, inner]
      | array r items =>
        have inner := plain_renderExprs fun e he => child e (List.mem_map_of_mem he)
        simp [Expr.render, name, Text.plain_join ", " inner]
      | map r items =>
        have each : ∀ i ∈ items, i.1.render.Plain ∧ i.2.render.Plain := fun i hi =>
          ⟨child _ (List.mem_flatMap.2 ⟨i, hi, by simp⟩),
            child _ (List.mem_flatMap.2 ⟨i, hi, by simp⟩)⟩
        have inner := plain_renderPairs each
        simp [Expr.render, name, Text.plain_join ", " inner]
      | struct r members typeName =>
        have inner := plain_renderMembers fun m hm => ⟨here m hm,
          child _ (List.mem_map_of_mem (f := fun m => Node.expr m.2) hm)⟩
        simp [Expr.render, name, Text.plain_join ", " inner]
      | apply r function arguments =>
        have inner := plain_renderExprs fun e he => child e (List.mem_map_of_mem he)
        simp [Expr.render, name, Text.plain_join ", " inner]
      | get r e member =>
        have operand := child e (by simp [Expr.children])
        simp [Expr.render, name, plain_parenthesize _ operand]
      | unary r op e =>
        have operand := child e (by simp [Expr.children])
        simp [Expr.render, name, plain_parenthesize _ operand]
      | index r e i =>
        have operand := child e (by simp [Expr.children])
        have place := child i (by simp [Expr.children])
        simp [Expr.render, name, plain_parenthesize _ operand, place]
      | binary r op left right =>
        have before := child left (by simp [Expr.children])
        have behind := child right (by simp [Expr.children])
        simp [Expr.render, name, plain_parenthesize _ before, plain_parenthesize _ behind]
      | pair r left right =>
        have before := child left (by simp [Expr.children])
        have behind := child right (by simp [Expr.children])
        simp [Expr.render, name, before, behind]
      | ifThenElse r a b c =>
        have condition := child a (by simp [Expr.children])
        have consequent := child b (by simp [Expr.children])
        have alternative := child c (by simp [Expr.children])
        simp [Expr.render, name, condition, consequent, alternative]
    | _ => trivial

/-! ## Whole renderings -/

/-- The tokens of a node write it if it is part of an expression. -/
def Node.Restored (rules : Rules) : Node → Prop
  | .expr e => e.Restored rules
  | .placeholder p => p.Restored rules
  | _ => True

/-- The tokens of every writable part of an expression write it. -/
theorem Node.Everywhere.restored {n : Node} (h : n.Everywhere (Node.Writable rules)) :
    n.Restored rules := by
  induction h with
  | @intro n here _ ih =>
    cases n with
    | placeholder p =>
      exact Placeholder.restored here (ih (.expr p.expr) (by simp [Node.children]))
    | expr e =>
      have child : ∀ e', Node.expr e' ∈ e.children → e'.Restored rules :=
        fun e' mem => ih (.expr e') mem
      cases e with
      | boolean r value => exact Expr.restored_boolean r value
      | int r value radix => exact Expr.restored_int r here radix
      | float r x => exact Expr.restored_float r here
      | null r => exact Expr.restored_null r
      | string r parts =>
        exact Expr.restored_string r (fun text hp => (here.1 text hp).2)
          fun p hp => ih (.placeholder p) (mem_partNodes.2 ⟨p, hp, rfl⟩)
      | array r items =>
        exact Expr.restored_array r fun e he => child e (List.mem_map_of_mem he)
      | pair r left right =>
        exact Expr.restored_pair r (child _ (by simp [Expr.children]))
          (child _ (by simp [Expr.children]))
      | map r items =>
        refine Expr.restored_map r fun i hi => ⟨child _ ?_, child _ ?_⟩
        · exact List.mem_flatMap.2 ⟨i, hi, by simp⟩
        · exact List.mem_flatMap.2 ⟨i, hi, by simp⟩
      | struct r members typeName =>
        refine Expr.restored_struct r (fun s hs => ⟨(here.2 s hs).1.2, (here.2 s hs).2.2⟩)
          fun m hm => ⟨⟨(here.1 m hm).1, (here.1 m hm).2.2⟩, child _ ?_⟩
        exact List.mem_map_of_mem (f := fun m => Node.expr m.2) hm
      | ifThenElse r a b c =>
        exact Expr.restored_ifThenElse r (child _ (by simp [Expr.children]))
          (child _ (by simp [Expr.children])) (child _ (by simp [Expr.children]))
      | ident r name => exact Expr.restored_ident r here.1.2
      | get r e member =>
        have restored := child e (by simp [Expr.children])
        exact Expr.restored_get r (restored.subject here.1) here.2.2
      | index r e i =>
        have restored := child e (by simp [Expr.children])
        exact Expr.restored_index r (restored.subject here) (child _ (by simp [Expr.children]))
      | unary r op e => exact Expr.restored_unary r (child _ (by simp [Expr.children])) here
      | binary r op left right =>
        exact Expr.restored_binary r op (child _ (by simp [Expr.children]))
          (child _ (by simp [Expr.children]))
      | apply r function arguments =>
        exact Expr.restored_apply r fun e he => child e (List.mem_map_of_mem he)
    | _ => trivial

/-- A text that is legible as the tokens of an expression, up to its end, is parsed as that. -/
theorem Legible.parse_spelled {fe : FrontEnd} {σ : Surface.Expr} {ls : List Lexeme}
    (legible : Legible fe Expect.expr ls ['\n']) (script : Script .expr .plain σ (stepsFrom 0 ls)) :
    Surface.Expr.parse fe.next (spelled ls) = .ok σ := by
  refine legible.parse (terminated_eq fun last => ?_) rfl script
  cases legible.ends script.last_plain _ last

/-- A rendering of which the tokens are found and write the expression is parsed again, to an
expression of the same content, as it is shown. -/
theorem Expr.Restored.parse_render {e : Expr} (restored : e.Restored rules)
    (found : e.Found rules.frontEnd) (uri abspath : String) :
    ∃ e', (parseExpr rules (.ofString e.render.shown uri abspath)).result = .ok e' ∧
      e'.view = e.view := by
  obtain ⟨σ, e', script, -, built, view⟩ := (restored.writes [] .plain 0).toExpr
  have parsed := found.legible.parse_spelled script
  rw [e.spelled_lexemes, List.nil_append, ← Text.toList_shown] at parsed
  exact ⟨e', parseExpr_eq_ok parsed built, view⟩

/-- The rendering of a writable expression is the text of a string, which is parsed again, to an
expression of the same content. -/
theorem Expr.parse_render {e : Expr}
    (h : (Node.expr e).Everywhere (Node.Writable rules)) (uri abspath : String) :
    ∃ written e', e.render = .ofString written ∧
      (parseExpr rules (.ofString written uri abspath)).result = .ok e' ∧ e'.view = e.view := by
  have plain : e.render.Plain := (h.imp fun _ => Node.Writable.plain).plainlyRendered
  obtain ⟨e', parsed, view⟩ := Expr.Restored.parse_render h.restored h.found uri abspath
  exact ⟨e.render.shown, e', plain.ofString_shown.symm, parsed, view⟩

end Wdl
