import Wdl.Ast.Document
import Wdl.Number.Decimal

/-!
# Wdl.Render.Expr -- expressions as text

`Expr.render` writes an expression so that it reads the way it was built, with parentheses only
where an operand binds more loosely than its operator, or as loosely on the right of it
(`Expr.needsParens`). What it gives is a `Text`: the surrogates of a string stand in the rendering
as they are, and it is the text of a string just if there are none. `renderText` writes the literal
text of a string, `renderOptions` the options of a placeholder. `Version.render`, `Decl.render` and
`Command.render` write the parts of documents that have a text of their own.
-/

namespace Wdl

/-! ## Leaves -/

/-- The digits of a number in a base up to sixteen, letters as capitals. -/
def digitsIn (base n : Nat) : String := String.ofList ((Nat.toDigits base n).map Char.toUpper)

/-- An integer in the notation it was written in. A zero has no octal notation of its own. -/
def renderInt (value : Int) (radix : Radix) : String :=
  let sign := if value < 0 then "-" else ""
  match radix with
  | .hexadecimal => sign ++ "0x" ++ digitsIn 16 value.natAbs
  | .octal => if value = 0 then "0" else sign ++ "0" ++ digitsIn 8 value.natAbs
  | .decimal => sign ++ digitsIn 10 value.natAbs

/-- Literal text between double quotation marks: marks, backslashes, line feeds and tabs are
escaped, and so is what would open a placeholder. -/
def renderText : Text → Text
  | [] => []
  | p :: rest =>
    if p = .char '\\' then .char '\\' :: .char '\\' :: renderText rest
    else if p = .char '"' then .char '\\' :: .char '"' :: renderText rest
    else if p = .char '\n' then .char '\\' :: .char 'n' :: renderText rest
    else if p = .char '\t' then .char '\\' :: .char 't' :: renderText rest
    else if (p = .char '~' ∨ p = .char '$') ∧ rest.head? = some (.char '\x7b') then
      .char '\\' :: p :: renderText rest
    else p :: renderText rest

/-- The options of a placeholder. -/
def renderOptions (options : PlaceholderOptions) : List Text :=
  options.map fun (name, value) => .ofString name ++ .ofString "=\"" ++ value ++ .ofString "\""

/-! ## Parentheses -/

namespace Expr

/-- How strongly prefix operators bind. -/
def unaryBinding : Nat := 7

/-- How strongly accesses bind. -/
def accessBinding : Nat := 8

/-- How strongly an expression holds together. -/
def binding : Expr → Nat
  | .binary _ op _ _ => op.precedence
  | .unary _ _ _ => unaryBinding
  | .ifThenElse _ _ _ _ => 0
  | _ => accessBinding + 1

/-- A binary operator applied to two operands. -/
def isBinary : Expr → Bool
  | .binary _ _ _ _ => true
  | _ => false

/-- Whether an operand needs parentheses below an operator of the given strength. -/
def needsParens (e : Expr) (strength : Nat) (onRight : Bool) : Bool :=
  e.binding < strength || (onRight && e.binding == strength && e.isBinary)

end Expr

/-- Puts parentheses around a text if asked to. -/
def parenthesize (parens : Bool) (t : Text) : Text :=
  if parens then .ofString "(" ++ t ++ .ofString ")" else t

/-! ## Expressions -/

mutual

/-- The text of an expression. -/
def Expr.render : Expr → Text
  | .boolean _ value => .ofString (if value then "true" else "false")
  | .int _ value radix => .ofString (renderInt value radix)
  | .float _ value => .ofString value.toText
  | .null _ => .ofString "None"
  | .string _ parts => .ofString "\"" ++ (renderParts parts).flatten ++ .ofString "\""
  | .array _ items => .ofString "[" ++ Text.join ", " (renderExprs items) ++ .ofString "]"
  | .pair _ left right =>
    .ofString "(" ++ left.render ++ .ofString ", " ++ right.render ++ .ofString ")"
  | .map _ items => .ofString "\x7b" ++ Text.join ", " (renderPairs items) ++ .ofString "\x7d"
  | .struct _ members typeName =>
    .ofString (typeName.getD "object") ++ .ofString " \x7b" ++
      Text.join ", " (renderMembers members)
      ++ .ofString "\x7d"
  | .ifThenElse _ condition consequent alternative =>
    .ofString "if " ++ condition.render ++ .ofString " then " ++ consequent.render
      ++ .ofString " else " ++ alternative.render
  | .ident _ name => .ofString name
  | .get _ e member =>
    parenthesize (e.needsParens Expr.accessBinding false) e.render ++ .ofString "."
      ++ .ofString member
  | .index _ e i =>
    parenthesize (e.needsParens Expr.accessBinding false) e.render ++ .ofString "[" ++ i.render
      ++ .ofString "]"
  | .unary _ op e =>
    .ofString op.spelling ++ parenthesize (e.needsParens Expr.unaryBinding false) e.render
  | .binary _ op left right =>
    parenthesize (left.needsParens op.precedence false) left.render ++ .ofString " "
      ++ .ofString op.spelling ++ .ofString " "
      ++ parenthesize (right.needsParens op.precedence true) right.render
  | .apply _ function arguments =>
    .ofString function ++ .ofString "(" ++ Text.join ", " (renderExprs arguments) ++ .ofString ")"

/-- The texts of expressions. -/
def renderExprs : List Expr → List Text
  | [] => []
  | e :: rest => e.render :: renderExprs rest

/-- The texts of keys and values. -/
def renderPairs : List (Expr × Expr) → List Text
  | [] => []
  | (key, value) :: rest => (key.render ++ .ofString ": " ++ value.render) :: renderPairs rest

/-- The texts of members. A key is written as it is. -/
def renderMembers : List (Text × Expr) → List Text
  | [] => []
  | (key, value) :: rest => (key ++ .ofString ": " ++ value.render) :: renderMembers rest

/-- The texts of the parts of a string. -/
def renderParts : List Part → List Text
  | [] => []
  | .text text :: rest => renderText text :: renderParts rest
  | .placeholder p :: rest => p.render :: renderParts rest

/-- The text of a placeholder. -/
def Placeholder.render : Placeholder → Text
  | .mk _ options e =>
    .ofString "~\x7b" ++ Text.join " " (renderOptions options ++ [e.render]) ++ .ofString "\x7d"

end

/-! ## Declarations and commands -/

/-- The text of a version statement. -/
def Version.render (v : Version) : String := "version " ++ v.identifier

/-- The text of a declaration. -/
def Decl.render (d : Decl) : Text :=
  let bare := Text.ofString (d.type.render ++ " " ++ d.name)
  match d.expr with
  | none => bare
  | some e => bare ++ .ofString " = " ++ e.render

/-- The text of a command: its literal text as it is, and its placeholders. -/
def Command.render (c : Command) : Text :=
  c.parts.flatMap fun part => match part with
    | .text text => text
    | .placeholder p => p.render

end Wdl
