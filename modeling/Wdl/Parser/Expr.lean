import Wdl.Parser.Basic
import Wdl.Surface.Expr

/-!
# Wdl.Parser.Expr -- the grammar of expressions

Each rule is a parser that is given the parser of the expressions inside it; `expr` closes the
knot, with the length of the text as the bound on nesting. An expression takes as much as it can:
operators and accesses after the last branch of a choice belong to that branch.
-/

namespace Wdl.Parser

open Surface

variable (lex : Scanner)

/-! ## Pieces of an expression -/

/-- The word of a token. -/
def word (t : Token) : Word := ⟨t.range, t.text⟩

/-- The string literal of a token; its marks are one character each. -/
def quoted (t : Token) : Quoted := ⟨t.range, (t.chars.drop 1).dropLast⟩

/-- The numeric literal of a token. -/
def numeral (kind : NumeralKind) (t : Token) : Number := ⟨t.range, kind, t.chars⟩

/-- A name. -/
def takeName (after : Expect) : Parser Word := do return word (← take lex .name after)

/-- A numeric literal. -/
def takeNumber (after : Expect) : Parser Number := do
  match ← peek with
  | some (.number kind) => return numeral kind (← shift lex after)
  | _ => reject

/-- A string literal without placeholders. -/
def takeQuoted : Parser Quoted := do
  match ← peek with
  | some (.quoted _) => return quoted (← shift lex Expect.afterQuoted)
  | _ => reject

/-- The binary operator that a terminal stands for. -/
def binaryOp? : Terminal → Option BinaryOp
  | .symbol s => BinaryOp.ofSymbol? s
  | _ => none

/-- The prefix operator that a terminal stands for. -/
def unaryOp? : Terminal → Option UnaryOp
  | .symbol s => UnaryOp.ofSymbol? s
  | _ => none

/-- What starts an accessor. -/
def startsAccessor : Terminal → Bool
  | .symbol .dot | .symbol .bracketOpen => true
  | _ => false

/-! ## The rules, given the expressions inside -/

section Rules

variable (expr : Parser Surface.Expr)

/-- An index in brackets, or a member after a dot. -/
def accessor : Parser Accessor := do
  if ← sees (.symbol .dot) then
    let dot ← shift lex Expect.aName
    let name ← takeName lex Expect.afterOperand
    return .member ⟨dot.start, name.range.stop⟩ name
  else
    let bracket ← takeSymbol lex .bracketOpen Expect.expr
    let index ← expr
    let close ← takeSymbol lex .bracketClose Expect.afterOperand
    return .index ⟨bracket.start, close.stop⟩ index

/-- The accesses to an expression. -/
def accessed (subject : Surface.Expr) : Parser Surface.Expr := do
  match ← many startsAccessor (accessor lex expr) with
  | [] => return subject
  | accessors => return .access subject accessors

/-- A member of a struct literal. -/
def structMember : Parser (Key × Surface.Expr) := do
  if ← sees .name then
    let name ← takeName lex Expect.aColon
    let _ ← takeSymbol lex .colon Expect.expr
    return (.word name, ← expr)
  else
    let key ← takeQuoted lex
    let _ ← takeSymbol lex .colon Expect.expr
    return (.quoted key, ← expr)

/-- What a name starts, once the name is taken: a function application, a struct literal, or
nothing more. -/
def afterName (name : Word) : Parser Surface.Expr := do
  if ← sees (.symbol .parenOpen) then
    let _ ← shift lex Expect.exprOrParen
    let arguments ← commaList lex .parenClose Expect.expr expr
    let close ← takeSymbol lex .parenClose Expect.afterOperand
    return .apply ⟨name.range.start, close.stop⟩ name arguments
  else if ← sees (.symbol .braceOpen) then
    let _ ← shift lex Expect.members
    let members ← commaList lex .braceClose Expect.members (structMember lex expr)
    let close ← takeSymbol lex .braceClose Expect.afterOperand
    return .struct ⟨name.range.start, close.stop⟩ name members
  else return .name name

/-- An array literal. -/
def array : Parser Surface.Expr := do
  let bracket ← takeSymbol lex .bracketOpen Expect.exprOrBracket
  let items ← commaList lex .bracketClose Expect.exprOrBracket expr
  let close ← takeSymbol lex .bracketClose Expect.afterOperand
  return .array ⟨bracket.start, close.stop⟩ items

/-- An expression or a pair in parentheses. -/
def parenthesized : Parser Surface.Expr := do
  let paren ← takeSymbol lex .parenOpen Expect.expr
  let left ← expr
  if ← optionalSymbol lex .comma Expect.expr then
    let right ← expr
    let close ← takeSymbol lex .parenClose Expect.afterOperand
    return .pair ⟨paren.start, close.stop⟩ left right
  else
    let close ← takeSymbol lex .parenClose Expect.afterOperand
    return .group ⟨paren.start, close.stop⟩ left

/-- A key and value of a map literal. -/
def mapItem : Parser (Surface.Expr × Surface.Expr) := do
  let key ← expr
  let _ ← takeSymbol lex .colon Expect.expr
  return (key, ← expr)

/-- A map literal. -/
def map : Parser Surface.Expr := do
  let brace ← takeSymbol lex .braceOpen Expect.exprOrBrace
  let items ← commaList lex .braceClose Expect.exprOrBrace (mapItem lex expr)
  let close ← takeSymbol lex .braceClose Expect.afterOperand
  return .map ⟨brace.start, close.stop⟩ items

/-- A choice between two expressions. -/
def choice : Parser Surface.Expr := do
  let start ← takeKeyword lex .kwIf Expect.expr
  let condition ← expr
  let _ ← takeKeyword lex .kwThen Expect.expr
  let consequent ← expr
  let _ ← takeKeyword lex .kwElse Expect.expr
  let alternative ← expr
  return .choice ⟨start.start, alternative.range.stop⟩ condition consequent alternative

/-- The operators and operands behind the first operand of a chain, at most `n`. -/
def chainUpTo (operand : Parser Surface.Expr) : Nat → Parser (List (BinaryOp × Surface.Expr))
  | 0 => return []
  | n + 1 => do
    match (← peek).bind binaryOp? with
    | some op =>
      let _ ← shift lex Expect.expr
      let right ← operand
      let rest ← chainUpTo operand n
      return (op, right) :: rest
    | none => return []

/-- The chain that an operand starts. -/
def chainFrom (operand : Parser Surface.Expr) (first : Surface.Expr) : Parser Surface.Expr := do
  match ← chainUpTo lex operand (← remaining) with
  | [] => return first
  | rest => return .chain first rest

/-- Prefix operators, at most `n`. -/
def signsUpTo : Nat → Parser (List (UnaryOp × Range))
  | 0 => return []
  | n + 1 => do
    match (← peek).bind unaryOp? with
    | some op =>
      let sign ← shift lex Expect.expr
      let rest ← signsUpTo n
      return (op, sign.range) :: rest
    | none => return []

/-! ## Placeholders and strings -/

/-- The value of a placeholder option. -/
def optionValue : Parser OptionValue := do
  match ← peek with
  | some (.quoted _) => return .quoted (← takeQuoted lex)
  | _ => return .number (← takeNumber lex Expect.afterNumber)

/-- Where the value of a placeholder option ends. -/
def optionStop : OptionValue → Nat
  | .quoted q => q.range.stop
  | .number n => n.range.stop

/-- The rest of a placeholder option, once its name is taken and an equal sign is ahead. -/
def placeholderOption (name : Word) : Parser PlaceholderOption := do
  let _ ← takeSymbol lex .equal Expect.optionValue
  let value ← optionValue lex
  return ⟨⟨name.range.start, optionStop value⟩, name, value⟩

/-- At most `n` options and an expression. A name or truth value at the start belongs to an option
if an equal sign follows, and else to the expression. -/
def placeholderUpTo (operand : Parser Surface.Expr) :
    Nat → Parser (List PlaceholderOption × Surface.Expr)
  | 0 => reject
  | n + 1 => do
    let finish (primary : Surface.Expr) : Parser (List PlaceholderOption × Surface.Expr) := do
      return ([], ← chainFrom lex operand (← accessed lex expr primary))
    let continueWith (name : Word) : Parser (List PlaceholderOption × Surface.Expr) := do
      let option ← placeholderOption lex name
      let (options, e) ← placeholderUpTo operand n
      return (option :: options, e)
    match ← peek with
    | some .name =>
      let name ← takeName lex Expect.afterPlaceholderName
      if ← sees (.symbol .equal) then continueWith name else finish (← afterName lex expr name)
    | some (.keyword .kwTrue) =>
      let name := word (← shift lex Expect.afterPlaceholderTruth)
      if ← sees (.symbol .equal) then continueWith name else finish (.boolean name.range true)
    | some (.keyword .kwFalse) =>
      let name := word (← shift lex Expect.afterPlaceholderTruth)
      if ← sees (.symbol .equal) then continueWith name else finish (.boolean name.range false)
    | _ => return ([], ← expr)

/-- What is between the braces of a placeholder. -/
def placeholder (operand : Parser Surface.Expr) : Parser Surface.Placeholder := do
  let (options, e) ← placeholderUpTo lex expr operand (← remaining)
  let start := (options.head?.map fun o => o.range.start).getD e.range.start
  return .mk ⟨start, e.range.stop⟩ options e

/-- At most `n` parts of a string or command, with the terminals of literal text and of what opens a
placeholder, and what is looked for after each. -/
def partsUpTo (operand : Parser Surface.Expr) (text opener : Terminal) (afterText inside : Expect) :
    Nat → Parser (List Surface.Part)
  | 0 => return []
  | n + 1 => do
    if ← sees text then
      let token ← shift lex afterText
      let rest ← partsUpTo operand text opener afterText inside n
      return .text token.range token.chars :: rest
    else if ← sees opener then
      let _ ← shift lex Expect.expr
      let p ← placeholder lex expr operand
      let _ ← takeSymbol lex .braceClose inside
      let rest ← partsUpTo operand text opener afterText inside n
      return .placeholder p :: rest
    else return []

/-- A string. -/
def string (operand : Parser Surface.Expr) (q : Quote) : Parser Surface.Expr := do
  let start ← take lex (.mark q) (Expect.inString q)
  let parts ← partsUpTo lex expr operand (.stringText q) .opening (Expect.afterStringText q)
    (Expect.inString q) (← remaining)
  let close ← take lex (.mark q) Expect.afterOperand
  return .string ⟨start.start, close.stop⟩ parts

/-! ## Operands and expressions -/

/-- An operand without prefix operators and accesses. -/
def primary (operand : Parser Surface.Expr) : Parser Surface.Expr := do
  match ← peek with
  | some (.keyword .kwTrue) => return .boolean (← shift lex Expect.afterOperand).range true
  | some (.keyword .kwFalse) => return .boolean (← shift lex Expect.afterOperand).range false
  | some (.keyword .kwNone) => return .null (← shift lex Expect.afterOperand).range
  | some (.number _) => return .number (← takeNumber lex Expect.afterNumber)
  | some (.mark q) => string lex expr operand q
  | some (.symbol .bracketOpen) => array lex expr
  | some (.symbol .parenOpen) => parenthesized lex expr
  | some (.symbol .braceOpen) => map lex expr
  | some (.keyword .kwIf) => choice lex expr
  | some .name => afterName lex expr (← takeName lex Expect.afterName)
  | _ => reject

/-- An operand with its prefix operators and accesses. -/
def operandWith (operand : Parser Surface.Expr) : Parser Surface.Expr := do
  let signs ← signsUpTo lex (← remaining)
  let subject ← accessed lex expr (← primary lex expr operand)
  match signs with
  | [] => return subject
  | signs => return .signed signs subject

end Rules

mutual

/-- An operand that nests at most `n` deep. -/
def operand : Nat → Parser Surface.Expr
  | 0 => reject
  | n + 1 => operandWith lex (exprUpTo n) (operand n)

/-- An expression that nests at most `n` deep. -/
def exprUpTo : Nat → Parser Surface.Expr
  | 0 => reject
  | n + 1 => do chainFrom lex (operand n) (← operand n)

end

/-- An expression. What is left of the text bounds its nesting. -/
def expr : Parser Surface.Expr := do exprUpTo lex (2 * (← remaining))

end Wdl.Parser
