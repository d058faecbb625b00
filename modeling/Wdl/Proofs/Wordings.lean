import Wdl.Proofs.Legible
import Wdl.Render.Expr

/-!
# Wdl.Proofs.Wordings -- the tokens that a rendering is made of

The text of an expression is made of lexemes: tokens with the space in front of each, and what a
parser looks for behind it. `Expr.lexemes` lists them along the expression, and `spelled_lexemes`
says that spelling them out gives `Expr.render`. Whether a scanner finds these tokens
(`Wdl.Proofs.Retrieval`), and what a parser makes of them (`Wdl.Proofs.Restoration`), are two
separate matters.

* `Lexeme.symbol`, `Lexeme.keyword`, `Lexeme.name` and the like are single lexemes, with their kind
  and spelling.
* `numeralOf` writes a natural number in the notation of a radix, and `numberLexemes` puts a sign in
  front.
* `separated` and `enclosed` are lists with commas and parentheses around what binds too loosely,
  for lexemes what `Text.join` and `parenthesize` are for texts.

The recursion follows that of `Expr.render`, list by list; only the gap in front, and the place,
which decides what is looked for behind a name or a truth value, are handed down in addition.
-/

namespace Wdl

open Wdl.Parser (Place truth)

/-! ## Single lexemes -/

/-- The symbol of a binary operator. -/
def BinaryOp.symbol : BinaryOp → Symbol
  | .or => .orOr
  | .and => .andAnd
  | .eq => .equalEqual
  | .ne => .notEqual
  | .lt => .less
  | .le => .atMost
  | .gt => .greater
  | .ge => .atLeast
  | .add => .plus
  | .sub => .minus
  | .mul => .star
  | .div => .slash
  | .rem => .percent

/-- The symbol of a prefix operator. -/
def UnaryOp.symbol : UnaryOp → Symbol
  | .not => .bang
  | .neg => .minus
  | .pos => .plus

@[simp] theorem BinaryOp.spelling_symbol (op : BinaryOp) :
    op.symbol.spelling = op.spelling.toList := by cases op <;> rfl

@[simp] theorem UnaryOp.spelling_symbol (op : UnaryOp) :
    op.symbol.spelling = op.spelling.toList := by cases op <;> rfl

namespace Lexeme

/-- A symbol. -/
def symbol (gap : List Char) (s : Symbol) (after : Expect) : Lexeme :=
  ⟨gap, .symbol s, s.spelling, after⟩

/-- A keyword. -/
def keyword (gap : List Char) (k : Keyword) (after : Expect) : Lexeme :=
  ⟨gap, .keyword k, k.spelling, after⟩

/-- A name. -/
def name (gap : List Char) (s : String) (after : Expect) : Lexeme := ⟨gap, .name, s.toList, after⟩

/-- The mark at either end of a string. -/
def mark (gap : List Char) (after : Expect) : Lexeme :=
  ⟨gap, .mark .double, [Quote.double.char], after⟩

/-- What opens a placeholder. -/
def opening : Lexeme := ⟨[], .opening, ['~', '\x7b'], Expect.expr⟩

/-- The literal text of a string. -/
def literal (text : Text) : Lexeme :=
  ⟨[], .stringText .double, (renderText text).chars, Expect.afterStringText .double⟩

/-- A quoted text without escapes. -/
def quoted (text : Text) : Lexeme :=
  ⟨[], .quoted .double, '"' :: (text.chars ++ ['"']), Expect.afterQuoted⟩

/-- The name of a placeholder option. -/
def optionName (gap : List Char) (s : String) : Lexeme :=
  if s = "true" then keyword gap .kwTrue Expect.afterPlaceholderTruth
  else if s = "false" then keyword gap .kwFalse Expect.afterPlaceholderTruth
  else name gap s Expect.afterPlaceholderName

end Lexeme

/-! ## Numbers -/

/-- The digits of a number in a base up to sixteen. -/
def digitChars (base n : Nat) : List Char := (Nat.toDigits base n).map Char.toUpper

/-- The numeral of a natural number in the notation of a radix. -/
def numeralOf (radix : Radix) (n : Nat) : NumeralKind × List Char :=
  match radix with
  | .hexadecimal => (.hexadecimal, '0' :: 'x' :: digitChars 16 n)
  | .octal => if n = 0 then (.decimal, ['0']) else (.octal, '0' :: digitChars 8 n)
  | .decimal => (.decimal, digitChars 10 n)

/-- The lexemes of a number: its sign, if it is negative, and its numeral. -/
def numberLexemes (gap : List Char) (negative : Bool) (numeral : NumeralKind × List Char) :
    List Lexeme :=
  if negative then
    [.symbol gap .minus Expect.expr, ⟨[], .number numeral.1, numeral.2, Expect.afterNumber⟩]
  else [⟨gap, .number numeral.1, numeral.2, Expect.afterNumber⟩]

/-! ## Lists and parentheses -/

/-- Items with commas between them. -/
def separated (after : Expect) : List (List Lexeme) → List Lexeme
  | [] => []
  | item :: items => item ++ items.flatMap fun more => .symbol [] .comma after :: more

/-- Lexemes, if asked to with parentheses around them. -/
def enclosed (parens : Bool) (inner : List Char → Place → List Lexeme) (gap : List Char)
    (place : Place) : List Lexeme :=
  if parens then
    .symbol gap .parenOpen Expect.expr ::
      (inner [] .plain ++ [.symbol [] .parenClose Expect.afterOperand])
  else inner gap place

/-- The space between two items. -/
def space : List Char := [' ']

/-- The lexemes of the options of a placeholder. -/
def optionLexemes : PlaceholderOptions → List Char → List Lexeme
  | [], _ => []
  | (name, value) :: rest, gap =>
    .optionName gap name :: .symbol [] .equal Expect.optionValue :: .quoted value ::
      optionLexemes rest space

/-! ## Expressions -/

mutual

/-- The lexemes of an expression at some place, with a gap in front. -/
def Expr.lexemes : Expr → List Char → Place → List Lexeme
  | .boolean _ value, gap, place => [.keyword gap (truth value) place.afterTruth]
  | .int _ value radix, gap, _ => numberLexemes gap (value < 0) (numeralOf radix value.natAbs)
  | .float _ x, gap, _ => numberLexemes gap x.negative (.float, x.magnitudeText)
  | .null _, gap, _ => [.keyword gap .kwNone Expect.afterOperand]
  | .string _ parts, gap, _ =>
    .mark gap (Expect.inString .double) :: (partLexemes parts ++ [.mark [] Expect.afterOperand])
  | .array _ items, gap, _ =>
    .symbol gap .bracketOpen Expect.exprOrBracket ::
      (separated Expect.exprOrBracket (exprLexemes items [])
        ++ [.symbol [] .bracketClose Expect.afterOperand])
  | .pair _ left right, gap, _ =>
    .symbol gap .parenOpen Expect.expr :: (left.lexemes [] .plain ++
      .symbol [] .comma Expect.expr :: (right.lexemes space .plain
        ++ [.symbol [] .parenClose Expect.afterOperand]))
  | .map _ items, gap, _ =>
    .symbol gap .braceOpen Expect.exprOrBrace ::
      (separated Expect.exprOrBrace (pairLexemes items [])
        ++ [.symbol [] .braceClose Expect.afterOperand])
  | .struct _ members typeName, gap, place =>
    .name gap (typeName.getD "object") place.afterName :: .symbol space .braceOpen Expect.members ::
      (separated Expect.members (memberLexemes members [])
        ++ [.symbol [] .braceClose Expect.afterOperand])
  | .ifThenElse _ condition consequent alternative, gap, _ =>
    .keyword gap .kwIf Expect.expr :: (condition.lexemes space .plain ++
      .keyword space .kwThen Expect.expr :: (consequent.lexemes space .plain ++
        .keyword space .kwElse Expect.expr :: alternative.lexemes space .plain))
  | .ident _ name, gap, place => [.name gap name place.afterName]
  | .get _ e member, gap, place =>
    enclosed (e.needsParens Expr.accessBinding false) e.lexemes gap place ++
      [.symbol [] .dot Expect.aName, .name [] member Expect.afterOperand]
  | .index _ e i, gap, place =>
    enclosed (e.needsParens Expr.accessBinding false) e.lexemes gap place ++
      .symbol [] .bracketOpen Expect.expr :: (i.lexemes [] .plain
        ++ [.symbol [] .bracketClose Expect.afterOperand])
  | .unary _ op e, gap, _ =>
    .symbol gap op.symbol Expect.expr ::
      enclosed (e.needsParens Expr.unaryBinding false) e.lexemes [] .plain
  | .binary _ op left right, gap, place =>
    enclosed (left.needsParens op.precedence false) left.lexemes gap place ++
      .symbol space op.symbol Expect.expr ::
        enclosed (right.needsParens op.precedence true) right.lexemes space .plain
  | .apply _ function arguments, gap, place =>
    .name gap function place.afterName :: .symbol [] .parenOpen Expect.exprOrParen ::
      (separated Expect.expr (exprLexemes arguments [])
        ++ [.symbol [] .parenClose Expect.afterOperand])

/-- The lexemes of expressions, the first with a gap in front, the others with a space. -/
def exprLexemes : List Expr → List Char → List (List Lexeme)
  | [], _ => []
  | e :: rest, gap => e.lexemes gap .plain :: exprLexemes rest space

/-- The lexemes of keys and values. -/
def pairLexemes : List (Expr × Expr) → List Char → List (List Lexeme)
  | [], _ => []
  | (key, value) :: rest, gap =>
    (key.lexemes gap .plain ++ .symbol [] .colon Expect.expr :: value.lexemes space .plain) ::
      pairLexemes rest space

/-- The lexemes of the members of a struct. -/
def memberLexemes : List (Text × Expr) → List Char → List (List Lexeme)
  | [], _ => []
  | (key, value) :: rest, gap =>
    (.name gap key.shown Expect.aColon :: .symbol [] .colon Expect.expr ::
      value.lexemes space .plain) :: memberLexemes rest space

/-- The lexemes of the parts of a string. -/
def partLexemes : List Part → List Lexeme
  | [] => []
  | .text text :: rest => .literal text :: partLexemes rest
  | .placeholder p :: rest => p.lexemes ++ partLexemes rest

/-- The lexemes of a placeholder. -/
def Placeholder.lexemes : Placeholder → List Lexeme
  | .mk _ options e =>
    .opening :: (optionLexemes options [] ++ (e.lexemes (if options = [] then [] else space)
      .placeholder ++ [.symbol [] .braceClose (Expect.inString .double)]))

end

/-! ## Spelling

Spelling turns the lists of lexemes into the lists of texts that are joined by commas; the gap is
that of the first item, and the space behind a comma belongs to the item that follows. -/

/-- The texts of items, the first with a gap in front, the others with a space. -/
def spaced : List Char → List (List Char) → List (List Char)
  | _, [] => []
  | gap, text :: rest => (gap ++ text) :: spaced space rest

/-- Items behind the first, each with a comma in front. -/
theorem spelled_more (after : Expect) {items : List (List Lexeme)} {texts : List (List Char)}
    (h : items.map spelled = spaced space texts) :
    spelled (items.flatMap fun more => .symbol [] .comma after :: more) =
      texts.flatMap (", ".toList ++ ·) := by
  induction items generalizing texts with
  | nil =>
    cases texts with
    | nil => rfl
    | cons s texts => cases h
  | cons item items ih =>
    cases texts with
    | nil => cases h
    | cons s texts =>
      obtain ⟨first, rest⟩ := List.cons_eq_cons.1 h
      rw [List.flatMap_cons, spelled_append, ih rest, spelled_cons, first]
      rfl

/-- Joining puts the separator in front of every item but the first. -/
theorem intercalate_cons {α : Type} (sep item : List α) (items : List (List α)) :
    sep.intercalate (item :: items) = item ++ items.flatMap (sep ++ ·) := by
  induction items generalizing item with
  | nil => rw [List.intercalate_singleton, List.flatMap_nil, List.append_nil]
  | cons more items ih =>
    rw [List.intercalate_cons_cons, ih, List.flatMap_cons, List.append_assoc, List.append_assoc]

/-- Items with commas between them are spelled as such. -/
theorem spelled_separated (after : Expect) (items : List (List Lexeme)) {texts : List (List Char)}
    (h : items.map spelled = spaced [] texts) :
    spelled (separated after items) = ", ".toList.intercalate texts := by
  cases items with
  | nil =>
    cases texts with
    | nil => rfl
    | cons s texts => cases h
  | cons item items =>
    cases texts with
    | nil => cases h
    | cons s texts =>
      obtain ⟨first, rest⟩ := List.cons_eq_cons.1 h
      rw [separated, spelled_append, spelled_more after rest, intercalate_cons, first]
      rfl

/-- Parentheses are spelled around what is enclosed. -/
theorem spelled_enclosed (parens : Bool) {inner : List Char → Place → List Lexeme} {text : Text}
    (h : ∀ gap place, spelled (inner gap place) = gap ++ text.chars) (gap : List Char)
    (place : Place) :
    spelled (enclosed parens inner gap place) = gap ++ (parenthesize parens text).chars := by
  cases parens with
  | false => exact h gap place
  | true => simp [enclosed, parenthesize, Lexeme.symbol, Symbol.spelling, h]

theorem spelled_numberLexemes (gap : List Char) (negative : Bool)
    (numeral : NumeralKind × List Char) :
    spelled (numberLexemes gap negative numeral) =
      gap ++ ((if negative then ['-'] else []) ++ numeral.2) := by
  cases negative <;> simp [numberLexemes, Lexeme.symbol, Symbol.spelling]

theorem renderInt_eq (value : Int) (radix : Radix) :
    (renderInt value radix).toList =
      (if value < 0 then ['-'] else []) ++ (numeralOf radix value.natAbs).2 := by
  have sign : (if value < 0 then "-" else "").toList = if value < 0 then ['-'] else [] := by
    split <;> rfl
  cases radix with
  | hexadecimal => simp [renderInt, numeralOf, digitsIn, digitChars, sign]
  | decimal => simp [renderInt, numeralOf, digitsIn, digitChars, sign]
  | octal =>
    by_cases zero : value = 0
    · subst zero
      rfl
    · simp [renderInt, numeralOf, digitsIn, digitChars, sign, zero]

theorem toText_eq (x : Binary64) :
    x.toText.toList = (if x.negative then ['-'] else []) ++ x.magnitudeText := by
  unfold Binary64.toText
  cases x.negative <;> simp

theorem spelled_optionName (gap : List Char) (s : String) :
    (Lexeme.optionName gap s).text = gap ++ s.toList := by
  unfold Lexeme.optionName
  split
  · rename_i eq
    rw [eq]
    rfl
  · split
    · rename_i eq
      rw [eq]
      rfl
    · rfl

theorem spelled_optionLexemes (options : PlaceholderOptions) (gap : List Char) (text : Text) :
    spelled (optionLexemes options gap) ++ ((if options = [] then gap else space) ++ text.chars) =
      gap ++ (Text.join " " (renderOptions options ++ [text])).chars := by
  induction options generalizing gap with
  | nil => simp [optionLexemes, renderOptions, Text.chars_join]
  | cons option options ih =>
    obtain ⟨name, value⟩ := option
    have rest := ih space
    have same : (if options = [] then space else space) = space := by simp
    rw [same] at rest
    have front := spelled_optionName gap name
    rw [Lexeme.text] at front
    rw [optionLexemes, spelled_cons, ← List.append_assoc (Lexeme.gap _), front, spelled_cons,
      spelled_cons, if_neg (by simp)]
    -- something is behind every option, at least the expression
    have more : ∃ first others, renderOptions options ++ [text] = first :: others := by
      cases renderOptions options <;> simp
    obtain ⟨first, others, eq⟩ := more
    have tail : (Text.join " " (renderOptions ((name, value) :: options) ++ [text])).chars =
        name.toList ++ "=\"".toList ++ value.chars ++ "\"".toList ++ space ++
          (Text.join " " (renderOptions options ++ [text])).chars := by
      show (Text.join " " ((.ofString name ++ .ofString "=\"" ++ value ++ .ofString "\"") ::
        (renderOptions options ++ [text]))).chars = _
      rw [eq, Text.chars_join, Text.chars_join, List.map_cons, List.map_cons,
        List.intercalate_cons_cons]
      simp [space]
    rw [tail]
    simp only [List.append_assoc] at rest ⊢
    rw [rest]
    simp [Lexeme.symbol, Lexeme.quoted, Symbol.spelling]

theorem spelling_truth (value : Bool) :
    (truth value).spelling = (if value then "true" else "false").toList := by
  cases value <;> rfl

theorem spelling_none : Keyword.kwNone.spelling = "None".toList := rfl

theorem spelling_if : Keyword.kwIf.spelling ++ space = "if ".toList := rfl

theorem spelling_then : space ++ (Keyword.kwThen.spelling ++ space) = " then ".toList := rfl

theorem spelling_else : space ++ (Keyword.kwElse.spelling ++ space) = " else ".toList := rfl

mutual

/-- Spelling out the lexemes of an expression gives its rendering. -/
theorem Expr.spelled_lexemes : (e : Expr) → ∀ gap place,
    spelled (e.lexemes gap place) = gap ++ e.render.chars
  | .boolean _ value, gap, place => by
    rw [Expr.lexemes, Expr.render, spelled_cons, Lexeme.keyword, spelling_truth]
    simp
  | .int _ value radix, gap, place => by
    rw [Expr.lexemes, spelled_numberLexemes, Expr.render, Text.chars_ofString, renderInt_eq]
    simp
  | .float _ x, gap, place => by
    rw [Expr.lexemes, spelled_numberLexemes, Expr.render, Text.chars_ofString, toText_eq]
  | .null _, gap, place => by
    rw [Expr.lexemes, Expr.render, spelled_cons, Lexeme.keyword, spelling_none]
    simp
  | .string _ parts, gap, place => by
    simp [Expr.lexemes, Expr.render, Lexeme.mark, Quote.char, spelled_partLexemes parts]
  | .array _ items, gap, place => by
    have inner := spelled_separated Expect.exprOrBracket _ (spelled_exprLexemes items [])
    simp [Expr.lexemes, Expr.render, Lexeme.symbol, Symbol.spelling, Text.chars_join, inner]
  | .pair _ left right, gap, place => by
    simp [Expr.lexemes, Expr.render, Lexeme.symbol, Symbol.spelling, space, left.spelled_lexemes,
      right.spelled_lexemes]
  | .map _ items, gap, place => by
    have inner := spelled_separated Expect.exprOrBrace _ (spelled_pairLexemes items [])
    simp [Expr.lexemes, Expr.render, Lexeme.symbol, Symbol.spelling, Text.chars_join, inner]
  | .struct _ members typeName, gap, place => by
    have inner := spelled_separated Expect.members _ (spelled_memberLexemes members [])
    simp [Expr.lexemes, Expr.render, Lexeme.name, Lexeme.symbol, Symbol.spelling, space,
      Text.chars_join, inner]
  | .ifThenElse _ condition consequent alternative, gap, place => by
    simp only [Expr.lexemes, Expr.render, spelled_cons, spelled_append, Lexeme.keyword,
      condition.spelled_lexemes, consequent.spelled_lexemes, alternative.spelled_lexemes,
      Text.chars_append, Text.chars_ofString, ← spelling_if, ← spelling_then, ← spelling_else,
      List.append_assoc]
  | .ident _ name, gap, place => by
    simp [Expr.lexemes, Expr.render, Lexeme.name]
  | .get _ e member, gap, place => by
    simp [Expr.lexemes, Expr.render, Lexeme.name, Lexeme.symbol, Symbol.spelling,
      spelled_enclosed _ e.spelled_lexemes]
  | .index _ e i, gap, place => by
    simp [Expr.lexemes, Expr.render, Lexeme.symbol, Symbol.spelling,
      spelled_enclosed _ e.spelled_lexemes, i.spelled_lexemes]
  | .unary _ op e, gap, place => by
    simp [Expr.lexemes, Expr.render, Lexeme.symbol, spelled_enclosed _ e.spelled_lexemes]
  | .binary _ op left right, gap, place => by
    simp [Expr.lexemes, Expr.render, Lexeme.symbol, space, spelled_enclosed _ left.spelled_lexemes,
      spelled_enclosed _ right.spelled_lexemes]
  | .apply _ function arguments, gap, place => by
    have inner := spelled_separated Expect.expr _ (spelled_exprLexemes arguments [])
    simp [Expr.lexemes, Expr.render, Lexeme.name, Lexeme.symbol, Symbol.spelling, Text.chars_join,
      inner]

theorem spelled_exprLexemes : (es : List Expr) → ∀ gap,
    (exprLexemes es gap).map spelled = spaced gap ((renderExprs es).map Text.chars)
  | [], gap => rfl
  | e :: rest, gap => by
    rw [exprLexemes, List.map_cons, e.spelled_lexemes, spelled_exprLexemes rest, renderExprs,
      List.map_cons, spaced]

theorem spelled_pairLexemes : (items : List (Expr × Expr)) → ∀ gap,
    (pairLexemes items gap).map spelled = spaced gap ((renderPairs items).map Text.chars)
  | [], gap => rfl
  | (key, value) :: rest, gap => by
    rw [pairLexemes, List.map_cons, spelled_pairLexemes rest, renderPairs, List.map_cons, spaced]
    simp [key.spelled_lexemes, value.spelled_lexemes, Lexeme.symbol, Symbol.spelling, space]

theorem spelled_memberLexemes : (members : List (Text × Expr)) → ∀ gap,
    (memberLexemes members gap).map spelled =
      spaced gap ((renderMembers members).map Text.chars)
  | [], gap => rfl
  | (key, value) :: rest, gap => by
    rw [memberLexemes, List.map_cons, spelled_memberLexemes rest, renderMembers, List.map_cons,
      spaced]
    simp [value.spelled_lexemes, Lexeme.name, Lexeme.symbol, Symbol.spelling, space]

theorem spelled_partLexemes : (parts : List Part) →
    spelled (partLexemes parts) = Text.chars (renderParts parts).flatten
  | [] => rfl
  | .text text :: rest => by
    simp [partLexemes, renderParts, Lexeme.literal, spelled_partLexemes rest]
  | .placeholder p :: rest => by
    simp [partLexemes, renderParts, p.spelled_lexemes, spelled_partLexemes rest]

theorem Placeholder.spelled_lexemes : (p : Placeholder) → spelled p.lexemes = p.render.chars
  | .mk _ options e => by
    have inner := spelled_optionLexemes options [] e.render
    simp only [Placeholder.lexemes, Placeholder.render, spelled_cons, spelled_append,
      e.spelled_lexemes, spelled_nil]
    rw [← List.append_assoc (spelled _), inner]
    simp [Lexeme.opening, Lexeme.symbol, Symbol.spelling]

end

end Wdl
