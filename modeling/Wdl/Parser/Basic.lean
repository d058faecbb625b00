import Wdl.Token.Scan

/-!
# Wdl.Parser.Basic -- parsing with one token ahead

A parser sees one token ahead of what it has taken. Taking that token finds the next one, among the
terminals that are looked for after it; so every token is read once, in one context, and a text is
rejected at the first token that cannot continue it. Loops are bounded by the text that is left.
-/

namespace Wdl

/-- Why a text is not in the language. -/
inductive Rejection where
  /-- A token that cannot follow what was read. -/
  | unexpected (token : Token)
  /-- The text ends too early, after the given token. -/
  | unfinished (last : Option Range)
  /-- Nothing that is looked for starts at this place. -/
  | stray (place : Cursor)
deriving DecidableEq, Repr

/-- Where a rejection is reported. A token is reported up to its first whitespace; at the end of the
text it is the last token that is, or the first character if there is none. -/
def Rejection.range (fe : FrontEnd) : Rejection → Range
  | .unexpected token =>
    ⟨token.start, token.start + firstWordLength token.chars.length token.chars⟩
  | .unfinished last => last.getD ⟨0, 1⟩
  | .stray c => ⟨c.pos, c.pos + firstWordLength (fe.strayLength c.rest) c.rest⟩

namespace Parser

/-- The token ahead, the place behind it, and where the last token taken is. -/
structure State where
  ahead : Option Token
  cursor : Cursor
  last : Option Range
deriving DecidableEq, Repr

end Parser

/-- A parser takes tokens from the front of the text. -/
abbrev Parser := StateT Parser.State (Except Rejection)

namespace Parser

variable {α : Type} (lex : Scanner)

/-- Rejects the token ahead. -/
def reject : Parser α := do
  let s ← get
  match s.ahead with
  | some token => throw (.unexpected token)
  | none => throw (.unfinished s.last)

/-- The terminal ahead; none at the end of the text. -/
def peek : Parser (Option Terminal) := do return (← get).ahead.map Token.kind

/-- Whether a terminal is ahead. -/
def sees (t : Terminal) : Parser Bool := do return (← peek) == some t

/-- Takes the token ahead and finds the next one among those `after` it. -/
def shift (after : Expect) : Parser Token := do
  let s ← get
  match s.ahead with
  | none => reject
  | some token =>
    match lex after s.cursor with
    | .ok (ahead, cursor) => set (⟨ahead, cursor, some token.range⟩ : State); return token
    | .error place => throw (.stray place)

/-- Takes the token ahead, which must be of the given terminal. -/
def take (t : Terminal) (after : Expect) : Parser Token := do
  if ← sees t then shift lex after else reject

/-- Takes a symbol. -/
def takeSymbol (s : Symbol) (after : Expect) : Parser Token := take lex (.symbol s) after

/-- Takes a keyword. -/
def takeKeyword (k : Keyword) (after : Expect) : Parser Token := take lex (.keyword k) after

/-- Takes a symbol if it is ahead. -/
def optionalSymbol (s : Symbol) (after : Expect) : Parser Bool := do
  if ← sees (.symbol s) then
    let _ ← shift lex after
    return true
  else return false

/-- A bound on the tokens that are left. -/
def remaining : Parser Nat := do return (← get).cursor.rest.length + 1

/-! ## Lists -/

/-- At most `n` items, as long as what is ahead starts one. -/
def manyUpTo (starts : Terminal → Bool) (item : Parser α) : Nat → Parser (List α)
  | 0 => return []
  | n + 1 => do
    if (← peek).any starts then
      let x ← item
      let xs ← manyUpTo starts item n
      return x :: xs
    else return []

/-- Items as long as what is ahead starts one. -/
def many (starts : Terminal → Bool) (item : Parser α) : Parser (List α) := do
  manyUpTo starts item (← remaining)

/-- At most `n` more items, each after a comma. What is looked for after a comma decides whether
the list may end there. -/
def moreUpTo (close : Symbol) (after : Expect) (item : Parser α) : Nat → Parser (List α)
  | 0 => return []
  | n + 1 => do
    if ← optionalSymbol lex .comma after then
      if ← sees (.symbol close) then return []
      else
        let x ← item
        let xs ← moreUpTo close after item n
        return x :: xs
    else return []

/-- Items with commas between them up to a closing symbol, which is not taken. -/
def commaList (close : Symbol) (after : Expect) (item : Parser α) : Parser (List α) := do
  if ← sees (.symbol close) then return []
  else
    let x ← item
    let xs ← moreUpTo lex close after item (← remaining)
    return x :: xs

/-- At most `n` more items that start with a name, each perhaps after a comma. -/
def looseUpTo (close : Symbol) (after : Expect) (item : Parser α) : Nat → Parser (List α)
  | 0 => return []
  | n + 1 => do
    if ← optionalSymbol lex .comma after then
      if ← sees (.symbol close) then return []
      else
        let x ← item
        let xs ← looseUpTo close after item n
        return x :: xs
    else if ← sees .name then
      let x ← item
      let xs ← looseUpTo close after item n
      return x :: xs
    else return []

/-- Items that start with a name, perhaps with commas between them, up to a closing symbol, which is
not taken. -/
def looseList (close : Symbol) (after : Expect) (item : Parser α) : Parser (List α) := do
  if ← sees (.symbol close) then return []
  else
    let x ← item
    let xs ← looseUpTo lex close after item (← remaining)
    return x :: xs

/-! ## Whole texts -/

/-- The characters to parse: a text, with a line feed at its end. -/
def terminated (cs : List Char) : List Char :=
  if cs.getLast? = some '\n' then cs else cs ++ ['\n']

/-- Parses a whole text, whose first token is among `start`. -/
def whole (start : Expect) (p : Parser α) (cs : List Char) : Except Rejection α :=
  match lex start ⟨0, terminated cs⟩ with
  | .error place => .error (.stray place)
  | .ok (ahead, cursor) =>
    match StateT.run p ⟨ahead, cursor, none⟩ with
    | .error r => .error r
    | .ok (x, s) =>
      match s.ahead with
      | none => .ok x
      | some token => .error (.unexpected token)

end Parser

end Wdl
