import Wdl.Parser.Expr
import Wdl.Proofs.Steps

/-!
# Wdl.Proofs.Script -- the steps that write an expression

A script relates the surface form of an expression to the steps that write it, without saying how a
parser finds them: one rule for each way to write an expression, in four layers. Signs stand before
an accessed operand, operators between operands. The one thing that a rule forbids is what the
grammar resolves by taking as much as it can: no operator and no access follows a choice, because
what follows one belongs to its last branch.

* `Piece`, `Link`, `Sign`, `Suffix`, `MemberPiece`, `ItemPiece`, `OptionPiece`, `Hole` and
  `PartPiece` are the parts of which the rules are made, each with the tokens that write it. `steps`
  gives the steps of a part, `Fits` says that its tokens are of the right kinds, and there is one
  function that gives the surface form. They are polymorphic in what stands for an expression, since
  `Wdl.Proofs.Grammars` uses them too.
* `Separated` and `More` write lists with commas between the items and perhaps one at the end.
* `Script level place e xs` says that the steps `xs` write the expression `e`. `Level` is the layer,
  and `Place` whether the expression starts a placeholder, where its first word might be the name of
  an option.
* `Script.startsExpr`, `Script.endsExpr` and `Script.range_eq` say how a script starts, how it ends,
  and that the range of the surface form is that of its steps.
* `Script.atPlace` exchanges the place of a script whose first word cannot be an option's name.

`Wdl.Proofs.Reading` shows that a parser reads scripts, `Wdl.Proofs.Replay` that it reads every one
of them.
-/

namespace Wdl.Parser

open Surface

/-! ## Pieces

A step is a token together with the set of terminals that is looked for behind it, so pieces keep
both. Where the set does not depend on what follows, it is given by the function `steps`; behind a
name that starts an expression it does, and there it is part of the piece. -/

variable {α : Type}

/-- An expression with the steps that write it. The expression is its surface form, unless
something else is to stand for it. -/
structure Piece (α : Type := Surface.Expr) where
  expr : α
  steps : List Step

/-- A binary operator with its right operand. -/
structure Link (α : Type := Surface.Expr) where
  op : BinaryOp
  sign : Token
  operand : Piece α

/-- The steps of an operator and its operand. -/
def Link.steps (l : Link α) : List Step := ⟨l.sign, Expect.expr⟩ :: l.operand.steps

/-- The operator and operand of a link. -/
def Link.link (l : Link) : BinaryOp × Surface.Expr := (l.op, l.operand.expr)

/-- A prefix operator with the token that writes it. -/
structure Sign where
  op : UnaryOp
  token : Token

/-- The step of a prefix operator. -/
def Sign.step (x : Sign) : Step := ⟨x.token, Expect.expr⟩

/-- The operator and place of a sign. -/
def Sign.sign (x : Sign) : UnaryOp × Range := (x.op, x.token.range)

/-- An access with the tokens that write it. -/
inductive Suffix (α : Type := Surface.Expr) where
  | member (dot name : Token)
  | index (bracket close : Token) (inner : Piece α)

namespace Suffix

/-- The access that is written. -/
def accessor : Suffix → Accessor
  | .member dot name => .member ⟨dot.start, name.stop⟩ (word name)
  | .index bracket close inner => .index ⟨bracket.start, close.stop⟩ inner.expr

/-- The steps of an access. -/
def steps : Suffix α → List Step
  | .member dot name => [⟨dot, Expect.aName⟩, ⟨name, Expect.afterOperand⟩]
  | .index bracket close inner =>
    ⟨bracket, Expect.expr⟩ :: (inner.steps ++ [⟨close, Expect.afterOperand⟩])

/-- The tokens of an access are those of its kind. -/
def Fits : Suffix α → Prop
  | .member dot name => dot.kind = .symbol .dot ∧ name.kind = .name
  | .index bracket close _ =>
    bracket.kind = .symbol .bracketOpen ∧ close.kind = .symbol .bracketClose

/-- The expressions inside an access. -/
def inner : Suffix α → List (Piece α)
  | .member _ _ => []
  | .index _ _ inner => [inner]

end Suffix

/-- The key of a struct member with the token that writes it. -/
inductive KeyToken where
  | word (t : Token)
  | quoted (q : Quote) (t : Token)

namespace KeyToken

/-- The key that is written. -/
def key : KeyToken → Key
  | .word t => .word (Parser.word t)
  | .quoted _ t => .quoted (Parser.quoted t)

/-- The step of a key. -/
def step : KeyToken → Step
  | .word t => ⟨t, Expect.aColon⟩
  | .quoted _ t => ⟨t, Expect.afterQuoted⟩

/-- The token of a key is one of its kind. -/
def Fits : KeyToken → Prop
  | .word t => t.kind = .name
  | .quoted q t => t.kind = .quoted q

end KeyToken

/-- A struct member with the tokens that write it. -/
structure MemberPiece (α : Type := Surface.Expr) where
  key : KeyToken
  colon : Token
  value : Piece α

/-- The steps of a struct member. -/
def MemberPiece.steps (m : MemberPiece α) : List Step :=
  m.key.step :: ⟨m.colon, Expect.expr⟩ :: m.value.steps

/-- The member that is written. -/
def MemberPiece.member (m : MemberPiece) : Key × Surface.Expr := (m.key.key, m.value.expr)

/-- A key and value of a map with the tokens that write them. -/
structure ItemPiece (α : Type := Surface.Expr) where
  key : Piece α
  colon : Token
  value : Piece α

/-- The steps of a map item. -/
def ItemPiece.steps (i : ItemPiece α) : List Step :=
  i.key.steps ++ ⟨i.colon, Expect.expr⟩ :: i.value.steps

/-- The item that is written. -/
def ItemPiece.item (i : ItemPiece) : Surface.Expr × Surface.Expr := (i.key.expr, i.value.expr)

/-- The value of a placeholder option with the token that writes it. -/
inductive ValueToken where
  | quoted (q : Quote) (t : Token)
  | number (kind : NumeralKind) (t : Token)

namespace ValueToken

/-- The value that is written. -/
def value : ValueToken → OptionValue
  | .quoted _ t => .quoted (Parser.quoted t)
  | .number kind t => .number (numeral kind t)

/-- The step of a value. -/
def step : ValueToken → Step
  | .quoted _ t => ⟨t, Expect.afterQuoted⟩
  | .number _ t => ⟨t, Expect.afterNumber⟩

/-- The token of a value is one of its kind. -/
def Fits : ValueToken → Prop
  | .quoted q t => t.kind = .quoted q
  | .number kind t => t.kind = .number kind

end ValueToken

/-- A token that may be the name of a placeholder option, with what is looked for behind it. -/
def optionName? : Terminal → Option Expect
  | .name => some Expect.afterPlaceholderName
  | .keyword .kwTrue | .keyword .kwFalse => some Expect.afterPlaceholderTruth
  | _ => none

/-- A placeholder option with the tokens that write it. -/
structure OptionPiece where
  name : Step
  equal : Token
  value : ValueToken

namespace OptionPiece

/-- The option that is written. -/
def option (o : OptionPiece) : PlaceholderOption :=
  ⟨⟨o.name.token.start, optionStop o.value.value⟩, word o.name.token, o.value.value⟩

/-- The steps of an option. -/
def steps (o : OptionPiece) : List Step := [o.name, ⟨o.equal, Expect.optionValue⟩, o.value.step]

/-- The tokens of an option are those of its kind. -/
def Fits (o : OptionPiece) : Prop :=
  optionName? o.name.token.kind = some o.name.after ∧ o.equal.kind = .symbol .equal ∧
    o.value.Fits

end OptionPiece

/-- A placeholder with the steps that write it. -/
structure Hole (α : Type := Surface.Expr) where
  options : List OptionPiece
  body : Piece α

namespace Hole

/-- The steps of what is between the braces. -/
def steps (h : Hole α) : List Step := h.options.flatMap OptionPiece.steps ++ h.body.steps

/-- The placeholder that is written. -/
def placeholder (h : Hole) : Surface.Placeholder :=
  let options := h.options.map OptionPiece.option
  let start := (options.head?.map fun o => o.range.start).getD h.body.expr.range.start
  .mk ⟨start, h.body.expr.range.stop⟩ options h.body.expr

end Hole

/-- A string or command: the terminals of its literal text and of what opens a placeholder in it,
and what is looked for behind literal text, and behind placeholders and the opening mark. -/
structure Template where
  text : Terminal
  opener : Terminal
  afterText : Expect
  inside : Expect

/-- The template of a string. -/
def Template.string (q : Quote) : Template :=
  ⟨.stringText q, .opening, Expect.afterStringText q, Expect.inString q⟩

/-- A part of a template with the tokens that write it. -/
inductive PartPiece (α : Type := Surface.Expr) where
  | text (t : Token)
  | hole (opener close : Token) (h : Hole α)

namespace PartPiece

/-- The part that is written. -/
def part : PartPiece → Surface.Part
  | .text t => .text t.range t.chars
  | .hole _ _ h => .placeholder h.placeholder

/-- The steps of a part. -/
def steps (template : Template) : PartPiece α → List Step
  | .text t => [⟨t, template.afterText⟩]
  | .hole opener close h => ⟨opener, Expect.expr⟩ :: (h.steps ++ [⟨close, template.inside⟩])

/-- The tokens of a part are those of its kind. -/
def Fits (template : Template) : PartPiece α → Prop
  | .text t => t.kind = template.text
  | .hole opener close h =>
    opener.kind = template.opener ∧ close.kind = .symbol .braceClose ∧ ∀ o ∈ h.options, o.Fits

/-- The expressions inside a part. -/
def inner : PartPiece α → List (Piece α)
  | .text _ => []
  | .hole _ _ h => [h.body]

end PartPiece

/-! ## Lists

A list is given by the steps of its items. That lets one pair of relations serve arrays, arguments,
maps and structs, which write different things between their commas. -/

/-- More items, each after a comma; one comma may stand at the end. -/
inductive More (after : Expect) : List (List Step) → List Step → Prop
  | nil : More after [] []
  | trailing (comma : Token) : comma.kind = .symbol .comma → More after [] [⟨comma, after⟩]
  | cons {item : List Step} {items : List (List Step)} {xs : List Step} (comma : Token) :
      comma.kind = .symbol .comma → More after items xs →
      More after (item :: items) (⟨comma, after⟩ :: (item ++ xs))

/-- Items with commas between them. -/
inductive Separated (after : Expect) : List (List Step) → List Step → Prop
  | nil : Separated after [] []
  | cons {item : List Step} {items : List (List Step)} {xs : List Step} :
      More after items xs → Separated after (item :: items) (item ++ xs)

/-! ## Scripts

The layers are those of the grammar from the inside: a `primary` stands on its own, `accessed` adds
accesses, `operand` prefix operators, and `expr` binary operators. Runs of accesses, prefix
operators and binary operators are kept as lists, as in the surface form; how they nest is a matter
of building. -/

/-- The layers of expressions. -/
inductive Level where
  | primary | accessed | operand | expr
deriving DecidableEq, Repr

/-- Where an expression starts: at the start of a placeholder its first word may turn out to be the
name of an option. -/
inductive Place where
  | plain | placeholder
deriving DecidableEq, Repr

namespace Place

/-- What is looked for behind a name that an expression starts with. -/
def afterName : Place → Expect
  | .plain => Expect.afterName
  | .placeholder => Expect.afterPlaceholderName

/-- What is looked for behind a truth value that an expression starts with. -/
def afterTruth : Place → Expect
  | .plain => Expect.afterOperand
  | .placeholder => Expect.afterPlaceholderTruth

end Place

/-- The operand ends with the last branch of a choice. -/
def endsOpen : Surface.Expr → Bool
  | .choice _ _ _ _ => true
  | .signed _ e => endsOpen e
  | _ => false

/-- The keyword of a truth value. -/
def truth : Bool → Keyword
  | true => .kwTrue
  | false => .kwFalse

/-- The steps write an expression of a layer. -/
inductive Script : Level → Place → Surface.Expr → List Step → Prop
  | boolean {place : Place} (t : Token) (value : Bool) : t.kind = .keyword (truth value) →
      Script .primary place (.boolean t.range value) [⟨t, place.afterTruth⟩]
  | null {place : Place} (t : Token) : t.kind = .keyword .kwNone →
      Script .primary place (.null t.range) [⟨t, Expect.afterOperand⟩]
  | number {place : Place} (kind : NumeralKind) (t : Token) : t.kind = .number kind →
      Script .primary place (.number (numeral kind t)) [⟨t, Expect.afterNumber⟩]
  | name {place : Place} (t : Token) : t.kind = .name →
      Script .primary place (.name (word t)) [⟨t, place.afterName⟩]
  | string {place : Place} (q : Quote) (start close : Token) (parts : List PartPiece) :
      start.kind = .mark q → close.kind = .mark q →
      (∀ p ∈ parts, p.Fits (.string q)) →
      (∀ p ∈ parts, ∀ x ∈ p.inner, Script .expr .placeholder x.expr x.steps) →
      Script .primary place (.string ⟨start.start, close.stop⟩ (parts.map PartPiece.part))
        (⟨start, Expect.inString q⟩ ::
          (parts.flatMap (PartPiece.steps (.string q)) ++ [⟨close, Expect.afterOperand⟩]))
  | array {place : Place} (bracket close : Token) (items : List Piece) {xs : List Step} :
      bracket.kind = .symbol .bracketOpen → close.kind = .symbol .bracketClose →
      (∀ x ∈ items, Script .expr .plain x.expr x.steps) →
      Separated Expect.exprOrBracket (items.map Piece.steps) xs →
      Script .primary place (.array ⟨bracket.start, close.stop⟩ (items.map Piece.expr))
        (⟨bracket, Expect.exprOrBracket⟩ :: (xs ++ [⟨close, Expect.afterOperand⟩]))
  | group {place : Place} (paren close : Token) {e : Surface.Expr} {xs : List Step} :
      paren.kind = .symbol .parenOpen → close.kind = .symbol .parenClose →
      Script .expr .plain e xs →
      Script .primary place (.group ⟨paren.start, close.stop⟩ e)
        (⟨paren, Expect.expr⟩ :: (xs ++ [⟨close, Expect.afterOperand⟩]))
  | pair {place : Place} (paren comma close : Token) {l r : Surface.Expr} {xs ys : List Step} :
      paren.kind = .symbol .parenOpen → comma.kind = .symbol .comma →
      close.kind = .symbol .parenClose →
      Script .expr .plain l xs → Script .expr .plain r ys →
      Script .primary place (.pair ⟨paren.start, close.stop⟩ l r)
        (⟨paren, Expect.expr⟩ ::
          (xs ++ ⟨comma, Expect.expr⟩ :: (ys ++ [⟨close, Expect.afterOperand⟩])))
  | map {place : Place} (brace close : Token) (items : List ItemPiece) {xs : List Step} :
      brace.kind = .symbol .braceOpen → close.kind = .symbol .braceClose →
      (∀ i ∈ items, i.colon.kind = .symbol .colon) →
      (∀ i ∈ items, Script .expr .plain i.key.expr i.key.steps) →
      (∀ i ∈ items, Script .expr .plain i.value.expr i.value.steps) →
      Separated Expect.exprOrBrace (items.map ItemPiece.steps) xs →
      Script .primary place (.map ⟨brace.start, close.stop⟩ (items.map ItemPiece.item))
        (⟨brace, Expect.exprOrBrace⟩ :: (xs ++ [⟨close, Expect.afterOperand⟩]))
  | choice {place : Place} (kwIf kwThen kwElse : Token) {a b c : Surface.Expr}
      {xs ys zs : List Step} :
      kwIf.kind = .keyword .kwIf → kwThen.kind = .keyword .kwThen →
      kwElse.kind = .keyword .kwElse →
      Script .expr .plain a xs → Script .expr .plain b ys → Script .expr .plain c zs →
      Script .primary place (.choice ⟨kwIf.start, c.range.stop⟩ a b c)
        (⟨kwIf, Expect.expr⟩ ::
          (xs ++ ⟨kwThen, Expect.expr⟩ :: (ys ++ ⟨kwElse, Expect.expr⟩ :: zs)))
  | apply {place : Place} (name paren close : Token) (arguments : List Piece) {xs : List Step} :
      name.kind = .name → paren.kind = .symbol .parenOpen → close.kind = .symbol .parenClose →
      (∀ x ∈ arguments, Script .expr .plain x.expr x.steps) →
      Separated Expect.expr (arguments.map Piece.steps) xs →
      Script .primary place
        (.apply ⟨name.start, close.stop⟩ (word name) (arguments.map Piece.expr))
        (⟨name, place.afterName⟩ :: ⟨paren, Expect.exprOrParen⟩ ::
          (xs ++ [⟨close, Expect.afterOperand⟩]))
  | struct {place : Place} (name brace close : Token) (ms : List MemberPiece) {xs : List Step} :
      name.kind = .name → brace.kind = .symbol .braceOpen → close.kind = .symbol .braceClose →
      (∀ m ∈ ms, m.key.Fits ∧ m.colon.kind = .symbol .colon) →
      (∀ m ∈ ms, Script .expr .plain m.value.expr m.value.steps) →
      Separated Expect.members (ms.map MemberPiece.steps) xs →
      Script .primary place
        (.struct ⟨name.start, close.stop⟩ (word name) (ms.map MemberPiece.member))
        (⟨name, place.afterName⟩ :: ⟨brace, Expect.members⟩ ::
          (xs ++ [⟨close, Expect.afterOperand⟩]))
  | bare {place : Place} {e : Surface.Expr} {xs : List Step} :
      Script .primary place e xs → Script .accessed place e xs
  | accessed {place : Place} {e : Surface.Expr} {xs : List Step} (suffixes : List Suffix) :
      suffixes ≠ [] → endsOpen e = false → Script .primary place e xs →
      (∀ a ∈ suffixes, a.Fits) →
      (∀ a ∈ suffixes, ∀ x ∈ a.inner, Script .expr .plain x.expr x.steps) →
      Script .accessed place (.access e (suffixes.map Suffix.accessor))
        (xs ++ suffixes.flatMap Suffix.steps)
  | unsigned {place : Place} {e : Surface.Expr} {xs : List Step} :
      Script .accessed place e xs → Script .operand place e xs
  | signed {place : Place} {e : Surface.Expr} {xs : List Step} (signs : List Sign) :
      signs ≠ [] → (∀ x ∈ signs, unaryOp? x.token.kind = some x.op) →
      Script .accessed .plain e xs →
      Script .operand place (.signed (signs.map Sign.sign) e) (signs.map Sign.step ++ xs)
  | single {place : Place} {e : Surface.Expr} {xs : List Step} :
      Script .operand place e xs → Script .expr place e xs
  | chain {place : Place} {e : Surface.Expr} {xs : List Step} (links : List Link) :
      links ≠ [] → Script .operand place e xs →
      (∀ l ∈ links, binaryOp? l.sign.kind = some l.op) →
      (∀ l ∈ links, Script .operand .plain l.operand.expr l.operand.steps) →
      (∀ x ∈ (e :: links.map fun l => l.operand.expr).dropLast, endsOpen x = false) →
      Script .expr place (.chain e (links.map Link.link)) (xs ++ links.flatMap Link.steps)

/-! ## Ends of a script

What may stand behind an expression depends on its last token: behind a name an opening bracket may
follow, behind a number nothing that would go on with it. `Place.ends` are the sets that come into
question. -/

/-- What starts an operand without prefix operators. -/
def startsPrimary : Terminal → Bool
  | .keyword .kwTrue | .keyword .kwFalse | .keyword .kwNone | .keyword .kwIf => true
  | .symbol .bracketOpen | .symbol .parenOpen | .symbol .braceOpen => true
  | .number _ | .mark _ | .name => true
  | _ => false

/-- What starts an expression. -/
def startsExpr (t : Terminal) : Bool := (unaryOp? t).isSome || startsPrimary t

/-- Literal text of a string or command. -/
def isLiteral : Terminal → Bool
  | .stringText _ | .commandText _ => true
  | _ => false

/-- What is looked for behind the last token of an expression. -/
def endings : List Expect :=
  [Expect.afterOperand, Expect.afterNumber, Expect.afterName, Expect.afterPlaceholderName,
    Expect.afterPlaceholderTruth]

namespace Place

/-- What is looked for behind an expression at some place. -/
def ends : Place → List Expect
  | .plain => [Expect.afterOperand, Expect.afterNumber, Expect.afterName]
  | .placeholder => endings

theorem plain_ends (place : Place) : Place.plain.ends ⊆ place.ends := by
  cases place <;> decide

theorem ends_subset (place : Place) : place.ends ⊆ endings := by
  cases place <;> decide

theorem afterOperand_mem (place : Place) : Expect.afterOperand ∈ place.ends := by
  cases place <;> decide

theorem afterNumber_mem (place : Place) : Expect.afterNumber ∈ place.ends := by
  cases place <;> decide

theorem afterName_mem (place : Place) : place.afterName ∈ place.ends := by
  cases place <;> decide

theorem afterTruth_mem (place : Place) : place.afterTruth ∈ place.ends := by
  cases place <;> decide

end Place

/-- From the start of the first token to the end of the last. -/
def spanOf (xs : List Step) : Range :=
  ⟨(xs.head?.map fun x => x.token.start).getD 0, (xs.getLast?.map fun x => x.token.stop).getD 0⟩

/-- Steps that stand one behind the other reach from the start of the first ones to the end of the
last. -/
theorem spanOf_append {xs ys : List Step} (hx : xs ≠ []) (hy : ys ≠ []) :
    spanOf (xs ++ ys) = (spanOf xs).join (spanOf ys) := by
  rw [spanOf, List.head?_append_of_ne_nil _ hx, List.getLast?_append_of_ne_nil _ hy]
  rfl

/-- The first step may be split off. -/
theorem spanOf_cons (x : Step) {xs : List Step} (h : xs ≠ []) :
    spanOf (x :: xs) = x.token.range.join (spanOf xs) := by
  rw [← List.singleton_append, spanOf_append (by simp) h]
  rfl

theorem spanOf_single (x : Step) : spanOf [x] = x.token.range := rfl

/-- What brackets enclose reaches from the one to the other. -/
theorem spanOf_enclosed (x y : Step) (xs : List Step) :
    spanOf (x :: (xs ++ [y])) = ⟨x.token.start, y.token.stop⟩ := by
  rw [spanOf_cons x (by simp)]
  simp [spanOf, Range.join, Token.range]

/-- A range through the ends of items is that of their steps. -/
theorem rangeThrough_spanOf {α : Type} {f : α → List Step} {r : α → Range} {xs : List Step}
    {items : List α} (hx : xs ≠ []) (ne : ∀ a ∈ items, f a ≠ [])
    (stop : ∀ a ∈ items, (spanOf (f a)).stop = (r a).stop) :
    rangeThrough (spanOf xs) (items.map r) = spanOf (xs ++ items.flatMap f) := by
  induction items generalizing xs with
  | nil => simp [rangeThrough_nil]
  | cons a items ih =>
    have reach : (spanOf xs).join (r a) = spanOf (xs ++ f a) := by
      rw [spanOf_append hx (ne a (by simp)), Range.join, ← stop a (by simp)]
      rfl
    rw [List.map_cons, rangeThrough_cons, reach, List.flatMap_cons, ← List.append_assoc]
    exact ih (by simp [hx]) (fun b hb => ne b (by simp [hb])) fun b hb => stop b (by simp [hb])

/-- The steps end as an expression at some place ends. -/
def EndsExpr (place : Place) (xs : List Step) : Prop :=
  ∃ y, xs.getLast? = some y ∧ y.after ∈ place.ends ∧ isLiteral y.token.kind = false

namespace EndsExpr

variable {place : Place} {xs ys : List Step}

theorem append (h : EndsExpr place ys) : EndsExpr place (xs ++ ys) := by
  obtain ⟨y, last, rest⟩ := h
  exact ⟨y, by rw [List.getLast?_append, last]; rfl, rest⟩

theorem cons {x : Step} (h : EndsExpr place xs) : EndsExpr place (x :: xs) :=
  @EndsExpr.append place [x] xs h

theorem single {t : Token} {after : Expect} {k : Terminal} (h : t.kind = k)
    (kind : isLiteral k = false) (mem : after ∈ place.ends) : EndsExpr place [⟨t, after⟩] :=
  ⟨⟨t, after⟩, rfl, mem, by rw [h]; exact kind⟩

theorem closed {t : Token} {k : Symbol} (h : t.kind = .symbol k) :
    EndsExpr place (xs ++ [⟨t, Expect.afterOperand⟩]) :=
  (EndsExpr.single h rfl place.afterOperand_mem).append

theorem ne_nil (h : EndsExpr place xs) : xs ≠ [] := by
  rintro rfl
  obtain ⟨y, last, -⟩ := h
  cases last

/-- What ends where the first word is no option's name may end at any place. -/
theorem any (h : EndsExpr .plain xs) (place : Place) : EndsExpr place xs := by
  obtain ⟨y, last, after, plain⟩ := h
  exact ⟨y, last, place.plain_ends after, plain⟩

/-- What ends every item of a nonempty list ends the list. -/
theorem flatMap {α : Type} {f : α → List Step} {xs : List α} (ne : xs ≠ [])
    (h : ∀ x ∈ xs, EndsExpr place (f x)) : EndsExpr place (xs.flatMap f) := by
  rw [← List.dropLast_append_getLast ne, List.flatMap_append, List.flatMap_singleton]
  exact (h _ (List.getLast_mem ne)).append

end EndsExpr

theorem Suffix.endsExpr {a : Suffix α} (h : a.Fits) (place : Place) : EndsExpr place a.steps := by
  cases a with
  | member dot name => exact (EndsExpr.single h.2 rfl place.afterOperand_mem).cons
  | index bracket close inner => exact (EndsExpr.closed h.2).cons

/-- The range of an access is that of its steps. -/
theorem Suffix.spanOf_steps (a : Suffix) : spanOf a.steps = a.accessor.range := by
  cases a with
  | member dot name => rfl
  | index bracket close inner => exact spanOf_enclosed _ _ _

/-- The script of an expression ends as an expression at its place ends. -/
theorem Script.endsExpr {level : Level} {place : Place} {e : Surface.Expr} {xs : List Step}
    (h : Script level place e xs) : EndsExpr place xs := by
  induction h with
  | @boolean place t value kind => exact EndsExpr.single kind rfl place.afterTruth_mem
  | @null place t kind => exact EndsExpr.single kind rfl place.afterOperand_mem
  | @number place k t kind => exact EndsExpr.single kind rfl place.afterNumber_mem
  | @name place t kind => exact EndsExpr.single kind rfl place.afterName_mem
  | @string place q start close parts _ kind _ _ _ =>
    exact (EndsExpr.single kind rfl place.afterOperand_mem).append.cons
  | array bracket close items _ kind _ _ _ => exact (EndsExpr.closed kind).cons
  | group paren close _ kind _ _ => exact (EndsExpr.closed kind).cons
  | pair paren comma close _ _ kind _ _ _ _ => exact (EndsExpr.closed kind).cons.append.cons
  | map brace close items _ kind _ _ _ _ _ _ => exact (EndsExpr.closed kind).cons
  | choice kwIf kwThen kwElse _ _ _ _ _ _ _ _ ih => exact (ih.any _).cons.append.cons.append.cons
  | apply name paren close arguments _ _ kind _ _ _ => exact (EndsExpr.closed kind).cons.cons
  | struct name brace close ms _ _ kind _ _ _ _ => exact (EndsExpr.closed kind).cons.cons
  | bare _ ih => exact ih
  | accessed suffixes ne _ _ fits _ _ _ =>
    exact (EndsExpr.flatMap ne fun a ha => Suffix.endsExpr (fits a ha) _).append
  | unsigned _ ih => exact ih
  | signed signs _ _ _ ih => exact (ih.any _).append
  | single _ ih => exact ih
  | chain links ne _ _ _ _ _ ih =>
    exact (EndsExpr.flatMap ne fun l hl => ((ih l hl).any _).cons).append

/-- There is no expression without tokens. -/
theorem Script.ne_nil {level : Level} {place : Place} {e : Surface.Expr} {xs : List Step}
    (h : Script level place e xs) : xs ≠ [] := h.endsExpr.ne_nil

/-- The first token of a script starts an expression; only an operand with signs starts with a
sign. -/
theorem Script.startsExpr {level : Level} {place : Place} {e : Surface.Expr} {xs : List Step}
    (h : Script level place e xs) :
    ∃ x, xs.head? = some x ∧ Parser.startsExpr x.token.kind = true ∧
      (level = .primary ∨ level = .accessed → startsPrimary x.token.kind = true) := by
  -- two facts for the cases below: a rule that starts with its own token, and one that starts with
  -- a part
  have primary : ∀ {level : Level} {t : Token} {after : Expect} {xs : List Step} {k : Terminal},
      t.kind = k → startsPrimary k = true →
      ∃ x, (⟨t, after⟩ :: xs : List Step).head? = some x ∧ Parser.startsExpr x.token.kind = true ∧
        (level = .primary ∨ level = .accessed → startsPrimary x.token.kind = true) := by
    intro level t after xs k kind starts
    refine ⟨⟨t, after⟩, rfl, ?_, fun _ => ?_⟩ <;> simp [Parser.startsExpr, kind, starts]
  have append : ∀ {xs ys : List Step} {p : Step → Prop}, (∃ x, xs.head? = some x ∧ p x) →
      ∃ x, (xs ++ ys).head? = some x ∧ p x := by
    rintro xs ys p ⟨x, head, hp⟩
    exact ⟨x, by rw [List.head?_append, head]; rfl, hp⟩
  induction h with
  | boolean t value kind => exact primary kind (by cases value <;> rfl)
  | null t kind => exact primary kind rfl
  | number k t kind => exact primary kind rfl
  | name t kind => exact primary kind rfl
  | string q start close parts kind _ _ _ => exact primary kind rfl
  | array bracket close items kind _ _ _ => exact primary kind rfl
  | group paren close kind _ _ => exact primary kind rfl
  | pair paren comma close kind _ _ _ _ => exact primary kind rfl
  | map brace close items kind _ _ _ _ _ => exact primary kind rfl
  | choice kwIf kwThen kwElse kind _ _ _ _ _ => exact primary kind rfl
  | apply name paren close arguments kind _ _ _ _ => exact primary kind rfl
  | struct name brace close ms kind _ _ _ _ _ => exact primary kind rfl
  | bare _ ih =>
    obtain ⟨x, head, starts, first⟩ := ih
    exact ⟨x, head, starts, fun _ => first (.inl rfl)⟩
  | accessed suffixes _ _ _ _ _ ih =>
    obtain ⟨x, head, starts, first⟩ := ih
    exact append ⟨x, head, starts, fun _ => first (.inl rfl)⟩
  | unsigned _ ih =>
    obtain ⟨x, head, starts, first⟩ := ih
    exact ⟨x, head, starts, by simp⟩
  | signed signs ne ops _ _ =>
    obtain ⟨x, signs, rfl⟩ := List.exists_cons_of_ne_nil ne
    have op := ops x (by simp)
    exact ⟨x.step, rfl, by simp [Parser.startsExpr, Sign.step, op], by simp⟩
  | single _ ih =>
    obtain ⟨x, head, starts, first⟩ := ih
    exact ⟨x, head, starts, by simp⟩
  | chain links _ _ _ _ _ ih =>
    obtain ⟨x, head, starts, first⟩ := ih
    exact append ⟨x, head, starts, by simp⟩

/-- An expression reaches from the first token of its script to the last. -/
theorem Script.range_eq {level : Level} {place : Place} {e : Surface.Expr} {xs : List Step}
    (h : Script level place e xs) : e.range = spanOf xs := by
  induction h with
  | boolean t value _ => rfl
  | null t _ => rfl
  | number kind t _ => rfl
  | name t _ => rfl
  | string q start close parts _ _ _ _ => exact (spanOf_enclosed ⟨start, _⟩ ⟨close, _⟩ _).symm
  | array bracket close items _ _ _ _ => exact (spanOf_enclosed ⟨bracket, _⟩ ⟨close, _⟩ _).symm
  | group paren close _ _ _ => exact (spanOf_enclosed ⟨paren, _⟩ ⟨close, _⟩ _).symm
  | @pair _ paren comma close l r xs ys =>
    have enclosed := spanOf_enclosed ⟨paren, Expect.expr⟩ ⟨close, Expect.afterOperand⟩
      (xs ++ ⟨comma, Expect.expr⟩ :: ys)
    show (⟨paren.start, close.stop⟩ : Range) = _
    simpa using enclosed.symm
  | map brace close items _ _ _ _ _ _ => exact (spanOf_enclosed ⟨brace, _⟩ ⟨close, _⟩ _).symm
  | @choice _ kwIf kwThen kwElse a b c xs ys zs _ _ _ ha hb hc _ _ ih =>
    rw [spanOf_cons _ (by simp), spanOf_append ha.ne_nil (by simp), spanOf_cons _ (by simp),
      spanOf_append hb.ne_nil (by simp), spanOf_cons _ hc.ne_nil, ← ih]
    rfl
  | @apply _ name paren close arguments xs _ _ _ _ _ =>
    exact (spanOf_enclosed ⟨name, _⟩ ⟨close, _⟩ (⟨paren, Expect.exprOrParen⟩ :: xs)).symm
  | @struct _ name brace close ms xs _ _ _ _ _ _ =>
    exact (spanOf_enclosed ⟨name, _⟩ ⟨close, _⟩ (⟨brace, Expect.members⟩ :: xs)).symm
  -- the other layers keep the range or extend it to the last of their parts
  | bare _ ih => exact ih
  | @accessed _ e xs suffixes ne _ primary fits _ ih =>
    show rangeThrough e.range ((suffixes.map Suffix.accessor).map Accessor.range) = _
    rw [ih, List.map_map]
    refine rangeThrough_spanOf primary.ne_nil ?_ ?_
    · intro a ha
      exact (Suffix.endsExpr (fits a ha) .plain).ne_nil
    · intro a _
      rw [a.spanOf_steps]
      rfl
  | unsigned _ ih => exact ih
  | @signed _ e xs signs ne _ accessed ih =>
    obtain ⟨x, signs, rfl⟩ := List.exists_cons_of_ne_nil ne
    show x.token.range.join e.range = _
    rw [spanOf_append (by simp) accessed.ne_nil, ih]
    rfl
  | single _ ih => exact ih
  | @chain _ e xs links ne operand _ operands _ ih ihs =>
    show rangeThrough e.range (Expr.operandRanges (links.map Link.link)) = _
    rw [ih, operandRanges_eq, List.map_map]
    refine rangeThrough_spanOf operand.ne_nil ?_ ?_
    · intro l hl
      exact List.cons_ne_nil _ _
    · intro l hl
      rw [Link.steps, spanOf_cons _ (operands l hl).ne_nil, ← ihs l hl]
      rfl

/-! ## Taking words, numbers and string literals -/

variable {lex : Scanner}

/-- A name is taken by a step with a token of that kind. -/
theorem takeName_eq_ok {after : Expect} {s s' : State} {w : Word} :
    takeName lex after s = .ok (w, s') ↔
      ∃ t : Token, t.kind = .name ∧ word t = w ∧ Run lex s [⟨t, after⟩] s' := by
  simp only [takeName, bind_eq_ok, take_eq_ok, pure_eq_ok]
  constructor
  · rintro ⟨t, u, ⟨kind, run⟩, rfl, rfl⟩
    exact ⟨t, kind, rfl, run⟩
  · rintro ⟨t, kind, rfl, run⟩
    exact ⟨t, s', ⟨kind, run⟩, rfl, rfl⟩

/-- A number is taken by a step with a token of some notation. -/
theorem takeNumber_eq_ok {after : Expect} {s s' : State} {n : Number} :
    takeNumber lex after s = .ok (n, s') ↔
      ∃ (t : Token) (kind : NumeralKind), t.kind = .number kind ∧ numeral kind t = n ∧
        Run lex s [⟨t, after⟩] s' := by
  rw [takeNumber, peek_bind]
  constructor
  · intro h
    cases seen : s.kind? with
    | none => rw [seen] at h; exact (reject_ne_ok.1 h).elim
    | some k =>
      rw [seen] at h
      cases k with
      | number kind =>
        obtain ⟨t, u, taken, h⟩ := bind_eq_ok.1 h
        obtain ⟨rfl, rfl⟩ := pure_eq_ok.1 h
        have run := shift_eq_ok.1 taken
        rw [run.kind?_eq] at seen
        exact ⟨t, kind, Option.some.inj seen, rfl, run⟩
      | _ => exact (reject_ne_ok.1 h).elim
  · rintro ⟨t, kind, isNumber, rfl, run⟩
    rw [run.kind?_eq, isNumber]
    exact bind_eq_ok.2 ⟨t, s', shift_eq_ok.2 run, pure_eq_ok.2 ⟨rfl, rfl⟩⟩

/-- A quoted text is taken by a step with a token of either quote. -/
theorem takeQuoted_eq_ok {s s' : State} {q : Quoted} :
    takeQuoted lex s = .ok (q, s') ↔
      ∃ (t : Token) (kind : Quote), t.kind = .quoted kind ∧ quoted t = q ∧
        Run lex s [⟨t, Expect.afterQuoted⟩] s' := by
  rw [takeQuoted, peek_bind]
  constructor
  · intro h
    cases seen : s.kind? with
    | none => rw [seen] at h; exact (reject_ne_ok.1 h).elim
    | some k =>
      rw [seen] at h
      cases k with
      | quoted kind =>
        obtain ⟨t, u, taken, h⟩ := bind_eq_ok.1 h
        obtain ⟨rfl, rfl⟩ := pure_eq_ok.1 h
        have run := shift_eq_ok.1 taken
        rw [run.kind?_eq] at seen
        exact ⟨t, kind, Option.some.inj seen, rfl, run⟩
      | _ => exact (reject_ne_ok.1 h).elim
  · rintro ⟨t, kind, isQuoted, rfl, run⟩
    rw [run.kind?_eq, isQuoted]
    exact bind_eq_ok.2 ⟨t, s', shift_eq_ok.2 run, pure_eq_ok.2 ⟨rfl, rfl⟩⟩

/-! ## The place of a script -/

/-- A script that does not start with the name of an option is the same at every place. -/
theorem Script.atPlace {level : Level} {place : Place} {e : Surface.Expr} {xs : List Step}
    (h : Script level place e xs) (place' : Place)
    (head : ∀ x, xs.head? = some x → optionName? x.token.kind = none) :
    Script level place' e xs := by
  -- a rule that starts with a name or truth value is excluded by the assumption on the first token
  have word : ∀ {t : Token} {after : Expect} {xs : List Step} {k : Terminal},
      (∀ x, (⟨t, after⟩ :: xs : List Step).head? = some x → optionName? x.token.kind = none) →
      t.kind = k → optionName? k ≠ none → False := by
    intro t after xs k head kind name
    exact name (kind ▸ head _ rfl)
  have front : ∀ {xs ys : List Step}, xs ≠ [] →
      (∀ x, (xs ++ ys).head? = some x → optionName? x.token.kind = none) →
      ∀ x, xs.head? = some x → optionName? x.token.kind = none := by
    intro xs ys ne head x hx
    exact head x (by rw [List.head?_append, hx]; rfl)
  induction h with
  | boolean t value kind =>
    exact (word head kind (by cases value <;> simp [truth, optionName?])).elim
  | null t kind => exact .null t kind
  | number k t kind => exact .number k t kind
  | name t kind => exact (word head kind (by simp [optionName?])).elim
  | string q start close parts k k' fits inner _ =>
    exact .string q start close parts k k' fits inner
  | array bracket close items k k' inner sep _ => exact .array bracket close items k k' inner sep
  | group paren close k k' inner _ => exact .group paren close k k' inner
  | pair paren comma close k k' k'' l r _ _ => exact .pair paren comma close k k' k'' l r
  | map brace close items k k' colons keys values sep _ _ =>
    exact .map brace close items k k' colons keys values sep
  | choice kwIf kwThen kwElse k k' k'' a b c _ _ _ =>
    exact .choice kwIf kwThen kwElse k k' k'' a b c
  | apply name paren close arguments kind _ _ _ _ _ =>
    exact (word head kind (by simp [optionName?])).elim
  | struct name brace close ms kind _ _ _ _ _ _ =>
    exact (word head kind (by simp [optionName?])).elim
  | bare _ ih => exact .bare (ih head)
  | accessed suffixes ne closed h fits inner ih _ =>
    exact .accessed suffixes ne closed (ih (front h.ne_nil head)) fits inner
  | unsigned _ ih => exact .unsigned (ih head)
  | signed signs ne ops h _ => exact .signed signs ne ops h
  | single _ ih => exact .single (ih head)
  | chain links ne h ops operands closed ih _ =>
    exact .chain links ne (ih (front h.ne_nil head)) ops operands closed

end Wdl.Parser
