import Wdl.Number.Binary64
import Wdl.Number.Numeral
import Wdl.Surface.Expr
import Wdl.Text.CodePoint

/-!
# Wdl.Ast.Expr -- expressions

The abstract form of an expression. Operators are nested by how they bind, signs before numbers are
folded into them, escapes are decoded, and parentheses only show in the ranges.
-/

namespace Wdl

/-- The options of a placeholder, by name; no name occurs twice. -/
abbrev PlaceholderOptions := List (String × Text)

mutual

/-- An expression. -/
inductive Expr where
  | boolean (range : Range) (value : Bool)
  | int (range : Range) (value : Int) (radix : Radix)
  | float (range : Range) (value : Binary64)
  | null (range : Range)
  | string (range : Range) (parts : List Part)
  | array (range : Range) (items : List Expr)
  | pair (range : Range) (left right : Expr)
  | map (range : Range) (items : List (Expr × Expr))
  /-- A struct literal; without a type name it is an object. -/
  | struct (range : Range) (members : List (Text × Expr)) (typeName : Option String)
  | ifThenElse (range : Range) (condition consequent alternative : Expr)
  | ident (range : Range) (name : String)
  | get (range : Range) (expr : Expr) (member : String)
  | index (range : Range) (expr index : Expr)
  | unary (range : Range) (op : UnaryOp) (operand : Expr)
  | binary (range : Range) (op : BinaryOp) (left right : Expr)
  | apply (range : Range) (function : String) (arguments : List Expr)

/-- A part of a string or command. -/
inductive Part where
  | text (text : Text)
  | placeholder (p : Placeholder)

/-- An expression in literal text, with its options. -/
inductive Placeholder where
  | mk (range : Range) (options : PlaceholderOptions) (expr : Expr)

end

instance : Inhabited Expr := ⟨.null default⟩

namespace Placeholder

/-- Where a placeholder is, from its first option, or else its expression, to its end. -/
def range : Placeholder → Range
  | .mk r _ _ => r

/-- The options of a placeholder. -/
def options : Placeholder → PlaceholderOptions
  | .mk _ options _ => options

/-- The expression of a placeholder. -/
def expr : Placeholder → Expr
  | .mk _ _ e => e

end Placeholder

namespace Expr

/-- Where an expression is. -/
def range : Expr → Range
  | .boolean r _ | .int r _ _ | .float r _ | .null r | .string r _ | .array r _ | .pair r _ _
  | .map r _ | .struct r _ _ | .ifThenElse r _ _ _ | .ident r _ | .get r _ _ | .index r _ _
  | .unary r _ _ | .binary r _ _ _ | .apply r _ _ => r

/-- The same expression at another place. -/
def withRange (r : Range) : Expr → Expr
  | .boolean _ v => .boolean r v
  | .int _ v radix => .int r v radix
  | .float _ v => .float r v
  | .null _ => .null r
  | .string _ ps => .string r ps
  | .array _ es => .array r es
  | .pair _ a b => .pair r a b
  | .map _ es => .map r es
  | .struct _ ms t => .struct r ms t
  | .ifThenElse _ a b c => .ifThenElse r a b c
  | .ident _ x => .ident r x
  | .get _ e m => .get r e m
  | .index _ e i => .index r e i
  | .unary _ op e => .unary r op e
  | .binary _ op a b => .binary r op a b
  | .apply _ f es => .apply r f es

@[simp] theorem range_withRange (r : Range) (e : Expr) : (e.withRange r).range = r := by
  cases e <;> rfl

/-- A number, a truth value, or `None`. -/
def isLiteral : Expr → Bool
  | .boolean _ _ | .int _ _ _ | .float _ _ | .null _ => true
  | _ => false

end Expr

/-- The placeholders of some parts, in order. -/
def placeholdersOf (parts : List Part) : List Placeholder :=
  parts.filterMap fun part =>
    match part with
    | .text _ => none
    | .placeholder p => some p

end Wdl
