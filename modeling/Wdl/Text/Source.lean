import Wdl.Text.Range

/-!
# Wdl.Text.Source -- where a position of a text is

A source text knows where its lines start and, unless it is pure ASCII, at which byte of its UTF-8
encoding each character starts. Both tables are computed once, and their defining equations are
part of the type. Positions count characters; a position outside the text is clamped into it.
-/

namespace Wdl

/-- A range as it is shown: lines and columns count from one, the offsets are bytes of the UTF-8
encoding, the end is exclusive. -/
structure Span where
  line : Nat
  column : Nat
  endLine : Nat
  endColumn : Nat
  offset : Nat
  endOffset : Nat
deriving DecidableEq, Repr, Inhabited

/-- From the start of the first span to the end of the last. -/
def Span.join (first last : Span) : Span :=
  { first with endLine := last.endLine, endColumn := last.endColumn, endOffset := last.endOffset }

/-- A span together with the names of the text it lies in. -/
structure Position where
  uri : String
  abspath : String
  span : Span
deriving DecidableEq, Repr, Inhabited

/-! ## The two tables -/

/-- The positions right after each line feed, the first character standing at `at`. -/
def lineStartsFrom (at_ : Nat) : List Char → List Nat
  | [] => []
  | c :: r => if c = '\n' then (at_ + 1) :: lineStartsFrom (at_ + 1) r
    else lineStartsFrom (at_ + 1) r

/-- The positions at which a line starts, ascending; the first line starts at zero. -/
def lineStartsOf (cs : List Char) : Array Nat := (0 :: lineStartsFrom 0 cs).toArray

/-- The byte offsets of the character positions from `at` on, the end of the text included. -/
def byteOffsetsFrom (at_ : Nat) : List Char → List Nat
  | [] => [at_]
  | c :: r => at_ :: byteOffsetsFrom (at_ + c.utf8Size) r

/-- A character of one byte. -/
def isAscii (c : Char) : Bool := c.toNat < 128

/-- The byte offset of each character position; absent where every character is one byte long. -/
def byteTableOf (cs : List Char) : Option (Array Nat) :=
  if cs.all isAscii then none else some (byteOffsetsFrom 0 cs).toArray

/-! ## Source texts -/

/-- A text with its names and its two tables. -/
structure SourceText where
  chars : List Char
  uri : String
  abspath : String
  length : Nat := chars.length
  lineStarts : Array Nat := lineStartsOf chars
  byteTable : Option (Array Nat) := byteTableOf chars
  length_eq : length = chars.length := by rfl
  lineStarts_eq : lineStarts = lineStartsOf chars := by rfl
  byteTable_eq : byteTable = byteTableOf chars := by rfl

namespace SourceText

/-- The name of a text that was not given one. -/
def unnamed : String := "(buffer)"

/-- The source text of a string. -/
def ofString (text uri abspath : String) : SourceText :=
  { chars := text.toList, uri, abspath }

/-- The whole text. -/
def text (s : SourceText) : String := String.ofList s.chars

/-- The position in the text that is nearest to `p`. -/
def clamp (s : SourceText) (p : Int) : Nat := min p.toNat s.length

/-- The byte at which the character at position `p` starts. -/
def byteOffset (s : SourceText) (p : Int) : Nat :=
  match s.byteTable with
  | none => s.clamp p
  | some table => table.getD (s.clamp p) 0

/-- Narrows `lo` to the last of the line starts below `hi` that is at most `q`. -/
def searchLine (starts : Array Nat) (q lo hi : Nat) : Nat :=
  if hi - lo > 1 then
    let mid := (lo + hi) / 2
    if starts.getD mid 0 ≤ q then searchLine starts q mid hi else searchLine starts q lo mid
  else lo
termination_by hi - lo

/-- Line and column of a position, both counted from one. -/
def lineColumn (s : SourceText) (p : Int) : Nat × Nat :=
  let q := s.clamp p
  let line := searchLine s.lineStarts q 0 s.lineStarts.size
  (line + 1, q - s.lineStarts.getD line 0 + 1)

/-- The position of a line and column; a line outside the text is clamped into it, a column is
only kept from falling before the start of its line. -/
def charPos (s : SourceText) (line column : Int) : Nat :=
  let line := max 1 (min line s.lineStarts.size)
  s.lineStarts.getD (line - 1).toNat 0 + (max column 1 - 1).toNat

/-- The span between two positions. -/
def spanBetween (s : SourceText) (start stop : Int) : Span :=
  let (line, column) := s.lineColumn start
  let (endLine, endColumn) := s.lineColumn stop
  { line, column, endLine, endColumn
    offset := s.byteOffset start, endOffset := s.byteOffset stop }

/-- The span of a range. -/
def span (s : SourceText) (r : Range) : Span := s.spanBetween r.start r.stop

/-- The position of a span of this text. -/
def position (s : SourceText) (span : Span) : Position := ⟨s.uri, s.abspath, span⟩

/-- The range of the whole text. -/
def wholeRange (s : SourceText) : Range := ⟨0, s.length⟩

end SourceText

end Wdl
