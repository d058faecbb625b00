import Wdl.Token.Terminal

/-!
# Wdl.Surface.Expr -- expressions as they are written

The surface form of an expression keeps what the text shows and decides nothing: a run of operands
and binary operators stays a chain, signs stay a list before their operand, accesses a list behind
their subject, and literal text is raw. Each part knows its range in the text.
-/

namespace Wdl

/-- Binary operators. -/
inductive BinaryOp where
  | or | and | eq | ne | lt | le | gt | ge | add | sub | mul | div | rem
deriving DecidableEq, Repr, Inhabited

namespace BinaryOp

/-- How an operator is written. -/
def spelling : BinaryOp → String
  | .or => "||"
  | .and => "&&"
  | .eq => "=="
  | .ne => "!="
  | .lt => "<"
  | .le => "<="
  | .gt => ">"
  | .ge => ">="
  | .add => "+"
  | .sub => "-"
  | .mul => "*"
  | .div => "/"
  | .rem => "%"

/-- How strongly an operator binds. All operators group to the left. -/
def precedence : BinaryOp → Nat
  | .or => 1
  | .and => 2
  | .eq | .ne => 3
  | .lt | .le | .gt | .ge => 4
  | .add | .sub => 5
  | .mul | .div | .rem => 6

/-- The operator that a symbol stands for between two operands. -/
def ofSymbol? : Symbol → Option BinaryOp
  | .orOr => some .or
  | .andAnd => some .and
  | .equalEqual => some .eq
  | .notEqual => some .ne
  | .less => some .lt
  | .atMost => some .le
  | .greater => some .gt
  | .atLeast => some .ge
  | .plus => some .add
  | .minus => some .sub
  | .star => some .mul
  | .slash => some .div
  | .percent => some .rem
  | _ => none

theorem precedence_pos (op : BinaryOp) : 1 ≤ op.precedence := by cases op <;> decide

theorem precedence_le (op : BinaryOp) : op.precedence ≤ 6 := by cases op <;> decide

end BinaryOp

/-- Prefix operators. -/
inductive UnaryOp where
  | not | neg | pos
deriving DecidableEq, Repr, Inhabited

namespace UnaryOp

/-- How an operator is written. -/
def spelling : UnaryOp → String
  | .not => "!"
  | .neg => "-"
  | .pos => "+"

/-- The operator that a symbol stands for before an operand. -/
def ofSymbol? : Symbol → Option UnaryOp
  | .bang => some .not
  | .minus => some .neg
  | .plus => some .pos
  | _ => none

end UnaryOp

namespace Surface

/-- A name as it is written. -/
structure Word where
  range : Range
  text : String
deriving DecidableEq, Repr, Inhabited

/-- A string literal without placeholders, the text between its marks still raw. -/
structure Quoted where
  range : Range
  raw : List Char
deriving DecidableEq, Repr, Inhabited

/-- A numeric literal. -/
structure Number where
  range : Range
  kind : NumeralKind
  chars : List Char
deriving DecidableEq, Repr, Inhabited

/-- The key of a struct member. -/
inductive Key where
  | word (w : Word)
  | quoted (q : Quoted)
deriving DecidableEq, Repr, Inhabited

/-- The value of a placeholder option. -/
inductive OptionValue where
  | quoted (q : Quoted)
  | number (n : Number)
deriving DecidableEq, Repr, Inhabited

/-- A placeholder option, such as `sep=","`. -/
structure PlaceholderOption where
  range : Range
  name : Word
  value : OptionValue
deriving DecidableEq, Repr, Inhabited

mutual

/-- An expression. -/
inductive Expr where
  /-- The literal `true` or `false`. -/
  | boolean (range : Range) (value : Bool)
  /-- The literal `None`. -/
  | null (range : Range)
  /-- A numeric literal. -/
  | number (n : Number)
  /-- A string with literal text and placeholders. -/
  | string (range : Range) (parts : List Part)
  /-- Items in brackets. -/
  | array (range : Range) (items : List Expr)
  /-- Two expressions in parentheses. -/
  | pair (range : Range) (left right : Expr)
  /-- One expression in parentheses. -/
  | group (range : Range) (inner : Expr)
  /-- Keys and values in braces. -/
  | map (range : Range) (items : List (Expr × Expr))
  /-- A choice between two expressions. -/
  | choice (range : Range) (condition consequent alternative : Expr)
  /-- A function with its arguments. -/
  | apply (range : Range) (function : Word) (arguments : List Expr)
  /-- A struct name with its members in braces. -/
  | struct (range : Range) (name : Word) (members : List (Key × Expr))
  /-- A name on its own. -/
  | name (w : Word)
  /-- Accesses to an expression, the innermost first. -/
  | access (subject : Expr) (accessors : List Accessor)
  /-- Prefix operators on an expression, the outermost first. -/
  | signed (signs : List (UnaryOp × Range)) (operand : Expr)
  /-- Operands with binary operators between them. -/
  | chain (first : Expr) (rest : List (BinaryOp × Expr))

/-- A part of a string or command: literal text or a placeholder. -/
inductive Part where
  | text (range : Range) (raw : List Char)
  | placeholder (p : Placeholder)

/-- An expression in literal text. -/
inductive Placeholder where
  | mk (range : Range) (options : List PlaceholderOption) (expr : Expr)

/-- An index in brackets, or a member after a dot. -/
inductive Accessor where
  | index (range : Range) (index : Expr)
  | member (range : Range) (name : Word)

end

instance : Inhabited Expr := ⟨.null default⟩

/-- Where a placeholder is: from its first option, or else its expression, to its expression. -/
def Placeholder.range : Placeholder → Range
  | .mk range _ _ => range

/-- Where an accessor is. -/
def Accessor.range : Accessor → Range
  | .index range _ => range
  | .member range _ => range

/-- The range from `first` through the last of some ranges. -/
def rangeThrough (first : Range) (ranges : List Range) : Range :=
  (ranges.getLast?.map first.join).getD first

mutual

/-- Where an expression is, from its first token to its last. -/
def Expr.range : Expr → Range
  | .boolean range _ => range
  | .null range => range
  | .number n => n.range
  | .string range _ => range
  | .array range _ => range
  | .pair range _ _ => range
  | .group range _ => range
  | .map range _ => range
  | .choice range _ _ _ => range
  | .apply range _ _ => range
  | .struct range _ _ => range
  | .name w => w.range
  | .access subject accessors => rangeThrough subject.range (accessors.map Accessor.range)
  | .signed signs operand =>
    match signs with
    | [] => operand.range
    | (_, range) :: _ => range.join operand.range
  | .chain first rest => rangeThrough first.range (Expr.operandRanges rest)

/-- Where the operands behind the first of a chain are. -/
def Expr.operandRanges : List (BinaryOp × Expr) → List Range
  | [] => []
  | (_, operand) :: rest => operand.range :: Expr.operandRanges rest

end

/-! ## Ranges of sequences -/

theorem rangeThrough_nil (r : Range) : rangeThrough r [] = r := rfl

theorem rangeThrough_cons (r a : Range) (as : List Range) :
    rangeThrough r (a :: as) = rangeThrough (r.join a) as := by
  cases as with
  | nil => rfl
  | cons b as => simp [rangeThrough, Range.join, List.getLast?_cons]

theorem rangeThrough_append (r : Range) (as bs : List Range) :
    rangeThrough r (as ++ bs) = rangeThrough (rangeThrough r as) bs := by
  induction as generalizing r with
  | nil => rfl
  | cons a as ih => rw [List.cons_append, rangeThrough_cons, rangeThrough_cons, ih]

theorem operandRanges_eq (links : List (BinaryOp × Expr)) :
    Expr.operandRanges links = links.map fun link => link.2.range := by
  induction links with
  | nil => rfl
  | cons link links ih => obtain ⟨op, e⟩ := link; simp [Expr.operandRanges, ih]

end Surface

end Wdl
