import Wdl.Text.Blank

/-!
# Wdl.Text.Indentation -- the common indentation of a command

A command template is literal text interleaved with placeholders. `strip` drops a blank first line
and a blank last line, measures the indentation that all non-blank lines share, and removes it.
A template whose indentation mixes tabs and spaces keeps it.
-/

namespace Wdl

/-- A piece of a template: literal text, or something that stands in for text. -/
inductive Piece (α : Type) where
  | text (chars : List Char)
  | hole (content : α)
deriving DecidableEq, Repr

namespace Indentation

variable {α : Type}

/-- One line of a template, without its line feed. -/
abbrev Line (α : Type) := List (Piece α)

/-! ## Lines -/

/-- Cuts a text at its line feeds: the first line, and the lines after it. -/
def cutLines : List Char → List Char × List (List Char)
  | [] => ([], [])
  | c :: rest =>
    let (first, more) := cutLines rest
    if c = '\n' then ([], first :: more) else (c :: first, more)

/-- Puts a line in front of a list of lines, on the first of them. -/
def onFirst (line : Line α) : List (Line α) → List (Line α)
  | [] => [line]
  | first :: more => (line ++ first) :: more

/-- The lines of a template; there is always at least one. -/
def lines : List (Piece α) → List (Line α)
  | [] => [[]]
  | .hole content :: rest => onFirst [.hole content] (lines rest)
  | .text chars :: rest =>
    let (first, more) := cutLines chars
    match more.reverse with
    | [] => onFirst [.text first] (lines rest)
    | last :: middle =>
      [.text first] :: (middle.reverse.map fun piece => [.text piece])
        ++ onFirst [.text last] (lines rest)

/-- A space or a tab. -/
def isIndent (c : Char) : Bool := c = ' ' || c = '\t'

/-- The indentation of a line, after the whitespace `before` it; absent if the line is blank. -/
def indentAfter (before : List Char) : Line α → Option (List Char)
  | [] => none
  | .hole _ :: _ => some before
  | .text chars :: rest =>
    if chars.all isBlank then indentAfter (before ++ chars) rest
    else some (before ++ chars.takeWhile isIndent)

/-- The indentation of a line: all whitespace before its first placeholder or non-blank piece, and
the spaces and tabs that piece starts with. A blank line has none. -/
def indent (line : Line α) : Option (List Char) := indentAfter [] line

/-- A line without placeholders that holds only whitespace. -/
def isBlankLine (line : Line α) : Bool := (indent line).isNone

/-- Removes `n` characters from the texts of a line, from the left. -/
def dedent : Nat → Line α → Line α
  | _, [] => []
  | n, .hole content :: rest => .hole content :: dedent n rest
  | n, .text chars :: rest => .text (chars.drop n) :: dedent (n - chars.length) rest

/-! ## The whole template -/

/-- Drops the first line if it is blank and not the only one. -/
def dropBlankFirst : List (Line α) → List (Line α)
  | first :: second :: more => if isBlankLine first then second :: more else first :: second :: more
  | short => short

/-- Drops the last line if it is blank. -/
def dropBlankLast (ls : List (Line α)) : List (Line α) :=
  match ls.getLast? with
  | some last => if isBlankLine last then ls.dropLast else ls
  | none => ls

/-- Adds a piece behind others; neighbouring texts become one, and an empty text is left out. -/
def snoc (done : List (Piece α)) (piece : Piece α) : List (Piece α) :=
  match piece with
  | .hole content => done ++ [.hole content]
  | .text [] => done
  | .text chars =>
    match done.getLast? with
    | some (.text before) => done.dropLast ++ [.text (before ++ chars)]
    | _ => done ++ [.text chars]

/-- The pieces of lines, a line feed between any two. -/
def linePieces : List (Line α) → List (Piece α)
  | [] => []
  | [line] => line
  | line :: more => line ++ .text ['\n'] :: linePieces more

/-- Puts lines back together. -/
def unlines (ls : List (Line α)) : List (Piece α) := (linePieces ls).foldl snoc []

/-- What stripping a template gives: the number of characters removed from each non-blank line,
absent where indentation mixes tabs and spaces, and the template that is left. -/
structure Stripped (α : Type) where
  width : Option Nat
  pieces : List (Piece α)

/-- Removes the indentation that the non-blank lines of a template share. -/
def strip (template : List (Piece α)) : Stripped α :=
  let body := dropBlankLast (dropBlankFirst (lines template))
  let indents := body.filterMap indent
  if indents.any (·.contains ' ') && indents.any (·.contains '\t') then
    ⟨none, unlines body⟩
  else
    let width := (indents.map List.length).min?.getD 0
    let dedented := body.map fun line => if isBlankLine line then line else dedent width line
    ⟨some width, unlines dedented⟩

end Indentation

end Wdl
