import Wdl.Ast.Expr
import Wdl.Build.Grouping
import Wdl.Build.Violation
import Wdl.Number.Decimal
import Wdl.Text.Escape
import Wdl.Token.Scan

/-!
# Wdl.Build.Expr -- expressions from their surface forms

Building nests chains, folds signs into numbers, decodes literal text and checks names. It works
through an expression from left to right and from the inside out, so that of several violations the
first in that order is reported. The two front ends nest and place operators in their own ways:
`tree` by levels, with the ranges of the surface forms; `flat` by stacks, with the ranges of what
was built.
-/

namespace Wdl

/-- What building depends on: the front end, the words that are no names, and the characters that an
escape can name. -/
structure Rules where
  frontEnd : FrontEnd
  reserved : List String
  names : CharacterNames

/-- The words of the language that are no names. -/
def reservedWords : List String :=
  ["Array", "File", "Float", "Int", "Map", "None", "Pair", "String", "alias", "as", "call",
   "command", "else", "false", "if", "import", "in", "input", "left", "meta", "object", "output",
   "parameter_meta", "right", "runtime", "scatter", "struct", "task", "then", "true", "version",
   "workflow", "Directory"]

/-- A value, or the first violation. -/
abbrev Checked := Except Violated

namespace Build

/-- Reports a violation. -/
def violate {α : Type} (v : Violation) (r : Range) : Checked α := .error ⟨v, r⟩

/-- Checks that a word may be a name. -/
def checkName (rules : Rules) (w : Surface.Word) : Checked Unit :=
  if rules.reserved.contains w.text then violate (.reservedName w.text) w.range else .ok ()

/-- The members that every pair has. -/
def pairMembers : List String := ["left", "right"]

/-- Checks that a word may be the name of a member; those of pairs always may. -/
def checkMember (rules : Rules) (w : Surface.Word) : Checked Unit :=
  if pairMembers.contains w.text then .ok () else checkName rules w

/-! ## Literals -/

/-- Decodes literal text. -/
def decodeText (names : CharacterNames) (r : Range) (raw : List Char) : Checked Text :=
  match Escape.decode raw names with
  | some text => .ok text
  | none => violate .badEscape r

/-- Decodes a string literal. -/
def quotedText (names : CharacterNames) (q : Surface.Quoted) : Checked Text :=
  decodeText names q.range q.raw

/-- The value of an integer literal. -/
def intLiteral (r : Range) (radix : Radix) (text : List Char) : Checked Nat :=
  if radix = .decimal ∧ Violation.maxDigits < text.length then
    violate (.tooManyDigits text.length) r
  else
    let value := Numeral.intValue radix text
    if maxInt < value then violate (.intTooGreat (String.ofList text)) r else .ok value

/-- The value of a numeric literal. -/
inductive NumberValue where
  | int (value : Int) (radix : Radix)
  | float (value : Binary64)
deriving DecidableEq, Repr

/-- Changes the sign of a number. -/
def NumberValue.neg : NumberValue → NumberValue
  | .int value radix => .int (-value) radix
  | .float value => .float value.neg

/-- The expression of a number. -/
def NumberValue.expr (r : Range) : NumberValue → Expr
  | .int value radix => .int r value radix
  | .float value => .float r value

/-- The text of a number that is the value of a placeholder option. -/
def NumberValue.text : NumberValue → String
  | .int value _ => toString value
  | .float value => value.toText

/-- The value of a numeric literal. -/
def numberValue (n : Surface.Number) : Checked NumberValue :=
  match n.kind with
  | .float => .ok (.float (Binary64.ofChars n.chars))
  | .hexadecimal => do return .int (← intLiteral n.range .hexadecimal n.chars) .hexadecimal
  | .octal => do return .int (← intLiteral n.range .octal n.chars) .octal
  | .decimal => do return .int (← intLiteral n.range .decimal n.chars) .decimal

/-! ## Operators -/

/-- Applies a prefix operator. A sign before a number becomes part of it. -/
def applySign (r : Range) (op : UnaryOp) (operand : Expr) : Expr :=
  match op, operand with
  | .neg, .int _ value radix => .int r (-value) radix
  | .pos, .int _ value radix => .int r value radix
  | .neg, .float _ value => .float r value.neg
  | .pos, .float _ value => .float r value
  | op, operand => .unary r op operand

/-- Applies prefix operators, given the outermost first, by nesting one in the other. -/
def nestSigns (stop : Nat) : List (UnaryOp × Range) → Expr → Expr
  | [], operand => operand
  | (op, r) :: signs, operand => applySign ⟨r.start, stop⟩ op (nestSigns stop signs operand)

/-- Applies prefix operators, given the outermost first, one by one from the innermost. -/
def foldSigns (whole : Range) (signs : List (UnaryOp × Range)) (operand : Expr) : Expr :=
  signs.reverse.foldl (fun e sign => applySign (sign.2.join whole) sign.1 e) operand

/-- An access that is built. -/
inductive Access where
  | index (range : Range) (index : Expr)
  | member (range : Range) (name : String)

/-- Where an access is. -/
def Access.range : Access → Range
  | .index r _ => r
  | .member r _ => r

/-- Applies one access. -/
def Access.apply (r : Range) (subject : Expr) : Access → Expr
  | .index _ i => .index r subject i
  | .member _ name => .get r subject name

/-- Applies accesses; each takes everything from the start of the subject. -/
def nestAccesses (start : Nat) (subject : Expr) (accesses : List Access) : Expr :=
  accesses.foldl (fun e a => a.apply ⟨start, a.range.stop⟩ e) subject

/-- Applies accesses; each joins its range to that of what it accesses. -/
def foldAccesses (subject : Expr) (accesses : List Access) : Expr :=
  accesses.foldl (fun e a => a.apply (e.range.join a.range) e) subject

/-- An operand with the range of its surface form. -/
abbrev Placed := Range × Expr

/-- Combines two operands; the result has the range of their surface forms. -/
def combinePlaced (op : BinaryOp) (left right : Placed) : Placed :=
  let r := left.1.join right.1
  (r, .binary r op left.2 right.2)

/-- Combines two operands; the result has the range of what they are. -/
def combineBuilt (op : BinaryOp) (left right : Expr) : Expr :=
  .binary (left.range.join right.range) op left right

/-- Nests a chain as the front end does. -/
def nestChain (fe : FrontEnd) (first : Placed) (rest : List (BinaryOp × Placed)) : Expr :=
  match fe with
  | .tree => (Grouping.layered combinePlaced first rest).2
  | .flat => Grouping.climb combineBuilt first.2 (rest.map fun link => (link.1, link.2.2))

/-- Applies prefix operators as the front end does. -/
def applySigns (fe : FrontEnd) (whole : Range) (signs : List (UnaryOp × Range)) (operand : Expr) :
    Expr :=
  match fe with
  | .tree => nestSigns whole.stop signs operand
  | .flat => foldSigns whole signs operand

/-- Applies accesses as the front end does. -/
def applyAccesses (fe : FrontEnd) (start : Nat) (subject : Expr) (accesses : List Access) : Expr :=
  match fe with
  | .tree => nestAccesses start subject accesses
  | .flat => foldAccesses subject accesses

/-! ## Strings and placeholders -/

/-- The names of placeholder options. -/
def optionNames : List String := ["default", "false", "true", "sep"]

/-- The text of the value of a placeholder option. -/
def optionText (names : CharacterNames) : Surface.OptionValue → Checked Text
  | .quoted q => quotedText names q
  | .number n => do return .ofString (← numberValue n).text

/-- A placeholder option: its name and the text of its value. -/
def placeholderOption (names : CharacterNames) (o : Surface.PlaceholderOption) :
    Checked (String × Text × Range) := do
  let value ← optionText names o.value
  if optionNames.contains o.name.text then .ok (o.name.text, value, o.range)
  else violate (.unknownOption o.name.text) o.range

/-- Collects entries in the order written; a key that occurs again is a violation. -/
def distinct {α : Type} (repeated : String → Violation) :
    List (String × α) → List (String × α × Range) → Checked (List (String × α))
  | done, [] => .ok done
  | done, (key, value, r) :: rest =>
    if done.any fun entry => entry.1 == key then violate (repeated key) r
    else distinct repeated (done ++ [(key, value)]) rest

/-- A part of a string or command whose literal text is still raw. -/
inductive RawPart where
  | text (range : Range) (raw : List Char)
  | placeholder (p : Placeholder)

/-- Decodes the literal text of parts. -/
def decodeParts (names : CharacterNames) : List RawPart → Checked (List Part)
  | [] => .ok []
  | .text r raw :: rest => do
    let text ← decodeText names r raw
    return .text text :: (← decodeParts names rest)
  | .placeholder p :: rest => do return .placeholder p :: (← decodeParts names rest)

/-! ## Expressions -/

/-- The name of an object literal, which is no struct name. -/
def objectWord : String := "object"

/-- The struct that a literal names; an object literal names none. -/
def structName (rules : Rules) (w : Surface.Word) : Checked (Option String) :=
  if w.text = objectWord then .ok none else do
    checkName rules w
    return some w.text

mutual

/-- Builds an expression. -/
def expr (rules : Rules) : Surface.Expr → Checked Expr
  | .boolean r value => .ok (.boolean r value)
  | .null r => .ok (.null r)
  | .number n => do return (← numberValue n).expr n.range
  | .string r ps => do return .string r (← decodeParts rules.names (← rawParts rules ps))
  | .array r items => do return .array r (← exprs rules items)
  | .pair r left right => do
    let left ← expr rules left
    return .pair r left (← expr rules right)
  | .group r inner => do return (← expr rules inner).withRange r
  | .map r items => do return .map r (← pairs rules items)
  | .choice r condition consequent alternative => do
    let condition ← expr rules condition
    let consequent ← expr rules consequent
    return .ifThenElse r condition consequent (← expr rules alternative)
  | .apply r function arguments => do return .apply r function.text (← exprs rules arguments)
  | .struct r name ms => do
    let ms ← members rules ms
    return .struct r ms (← structName rules name)
  | .name w => do
    checkName rules w
    return .ident w.range w.text
  | .access subject accessors => do
    let built ← expr rules subject
    let accesses ← accesses rules accessors
    return applyAccesses rules.frontEnd subject.range.start built accesses
  | .signed signs operand => do
    let built ← expr rules operand
    return applySigns rules.frontEnd (Surface.Expr.signed signs operand).range signs built
  | .chain first rest => do
    let built ← expr rules first
    return nestChain rules.frontEnd (first.range, built) (← operands rules rest)

/-- Builds expressions in order. -/
def exprs (rules : Rules) : List Surface.Expr → Checked (List Expr)
  | [] => .ok []
  | e :: rest => do
    let e ← expr rules e
    return e :: (← exprs rules rest)

/-- Builds the keys and values of a map. -/
def pairs (rules : Rules) : List (Surface.Expr × Surface.Expr) → Checked (List (Expr × Expr))
  | [] => .ok []
  | (key, value) :: rest => do
    let key ← expr rules key
    let value ← expr rules value
    return (key, value) :: (← pairs rules rest)

/-- Builds the members of a struct. A key in quotes is decoded before its value is built, a bare
key is checked after. -/
def members (rules : Rules) : List (Surface.Key × Surface.Expr) → Checked (List (Text × Expr))
  | [] => .ok []
  | (.quoted q, value) :: rest => do
    let key ← quotedText rules.names q
    let value ← expr rules value
    return (key, value) :: (← members rules rest)
  | (.word w, value) :: rest => do
    let value ← expr rules value
    checkName rules w
    return (.ofString w.text, value) :: (← members rules rest)

/-- Builds the operands behind the first of a chain. -/
def operands (rules : Rules) :
    List (BinaryOp × Surface.Expr) → Checked (List (BinaryOp × Placed))
  | [] => .ok []
  | (op, e) :: rest => do
    let built ← expr rules e
    return (op, e.range, built) :: (← operands rules rest)

/-- Builds accesses. -/
def accesses (rules : Rules) : List Surface.Accessor → Checked (List Access)
  | [] => .ok []
  | .index r i :: rest => do
    let i ← expr rules i
    return .index r i :: (← accesses rules rest)
  | .member r name :: rest => do
    checkMember rules name
    return .member r name.text :: (← accesses rules rest)

/-- Builds the placeholders among some parts and leaves literal text raw. -/
def rawParts (rules : Rules) : List Surface.Part → Checked (List RawPart)
  | [] => .ok []
  | .text r raw :: rest => do return .text r raw :: (← rawParts rules rest)
  | .placeholder p :: rest => do
    let p ← placeholder rules p
    return .placeholder p :: (← rawParts rules rest)

/-- Builds a placeholder. That no option is repeated is checked last. -/
def placeholder (rules : Rules) : Surface.Placeholder → Checked Placeholder
  | .mk r options e => do
    let options ← options.mapM (placeholderOption rules.names)
    let e ← expr rules e
    return .mk r (← distinct .repeatedOption [] options) e

end

end Build

end Wdl
