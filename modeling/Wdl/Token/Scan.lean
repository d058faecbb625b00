import Wdl.Token.Expect
import Wdl.Text.Blank

/-!
# Wdl.Token.Scan -- the next token of a text

A cursor stands between the characters read and the characters ahead. `next` finds the token that
starts there, given the terminals that are looked for. Where literal text is looked for it comes
first and takes layout with it; elsewhere layout (blanks, line ends, comments) is skipped. A name
whose whole text spells a keyword that is looked for is that keyword, so that no keyword is cut
from a longer word; where names are not looked for, a keyword needs no end of word.
-/

namespace Wdl

/-- The front ends: `tree` layers operators by precedence and tells the notations of numbers apart
when it finds them; `flat` takes operators as they come, and any number alike. -/
inductive FrontEnd where
  | tree
  | flat
deriving DecidableEq, Repr, Inhabited

/-- A place in a text, with the characters that follow it. -/
structure Cursor where
  pos : Nat
  rest : List Char
deriving DecidableEq, Repr, Inhabited

/-- Moves over `n` characters. -/
def Cursor.advance (c : Cursor) (n : Nat) : Cursor := ⟨c.pos + n, c.rest.drop n⟩

namespace Scan

/-! ## Layout -/

/-- The number of layout characters at the start of a text: spaces, tabs, line ends, and comments
from a hash mark to the end of its line. A carriage return counts only before a line feed. -/
def layoutLength (inComment : Bool) : List Char → Nat
  | [] => 0
  | '\r' :: '\n' :: rest => layoutLength false rest + 2
  | c :: rest =>
    if c = '\r' then 0
    else if c = '\n' then layoutLength false rest + 1
    else if inComment then layoutLength true rest + 1
    else if c = '#' then layoutLength true rest + 1
    else if c = ' ' ∨ c = '\t' then layoutLength false rest + 1
    else 0

/-! ## Literal text -/

/-- A character that may open a placeholder. -/
def isSigil (c : Char) : Bool := c = '~' || c = '$'

/-- The extent of literal text inside a string. It runs to the next mark or placeholder; a
backslash guards a mark or a backslash after it, and nothing else. -/
def stringTextLength (q : Quote) : List Char → Nat
  | [] => 0
  | ['\\'] => 1
  | '\\' :: c :: rest =>
    if c = '\\' ∨ c = q.char then stringTextLength q rest + 2
    else stringTextLength q (c :: rest) + 1
  | c :: rest =>
    if c = q.char then 0
    else if isSigil c then
      match rest with
      | [] => 0
      | d :: rest => if d = '\x7b' then 0 else stringTextLength q (d :: rest) + 1
    else stringTextLength q rest + 1

/-- The extent of literal text in a command between braces. It runs to the next closing brace or
placeholder. -/
def bracesTextLength : List Char → Nat
  | [] => 0
  | c :: rest =>
    if c = '\x7d' then 0
    else if isSigil c then
      match rest with
      | [] => 0
      | d :: rest => if d = '\x7b' then 0 else bracesTextLength (d :: rest) + 1
    else bracesTextLength rest + 1

/-- The extent of literal text in a command between triple angle brackets. It runs to the next
three closing brackets in a row, or to a placeholder opened by a tilde. -/
def heredocTextLength : List Char → Nat
  | [] => 0
  | c :: rest =>
    if c = '~' then
      match rest with
      | [] => 0
      | d :: rest => if d = '\x7b' then 0 else heredocTextLength (d :: rest) + 1
    else if c = '>' then
      match rest with
      | [] => 0
      | ['>'] => 0
      | '>' :: e :: rest => if e = '>' then 0 else heredocTextLength (e :: rest) + 2
      | d :: rest => heredocTextLength (d :: rest) + 1
    else heredocTextLength rest + 1

/-- The extent of literal text in a command. -/
def commandTextLength : CommandStyle → List Char → Nat
  | .braces => bracesTextLength
  | .heredoc => heredocTextLength

/-! ## String literals without placeholders -/

/-- The extent of a double-quoted literal after its opening mark: to the first mark on the same
line that follows an even number of backslashes. -/
def doubleRest? (escaped : Bool) : List Char → Option Nat
  | [] => none
  | c :: rest =>
    if c = '\n' then none
    else if c = '"' ∧ !escaped then some 1
    else (doubleRest? (c = '\\' && !escaped) rest).map (· + 1)

/-- The extent of a single-quoted literal after its opening mark: to the first mark that no
backslash guards, or failing that to the last one a backslash guards. -/
def singleRest? : List Char → Option Nat
  | [] => none
  | '\\' :: '\\' :: rest => (singleRest? rest).map (· + 2)
  | '\\' :: '\'' :: rest => some (((singleRest? rest).getD 0) + 2)
  | c :: rest => if c = '\'' then some 1 else (singleRest? rest).map (· + 1)

/-- The extent of a string literal without placeholders. -/
def quotedLength? (q : Quote) : List Char → Option Nat
  | [] => none
  | c :: rest =>
    if c = q.char then
      match q with
      | .double => (doubleRest? false rest).map (· + 1)
      | .single => (singleRest? rest).map (· + 1)
    else none

/-! ## Words -/

/-- An ASCII letter. -/
def isLetter (c : Char) : Bool := ('a' ≤ c && c ≤ 'z') || ('A' ≤ c && c ≤ 'Z')

/-- A character that a name may go on with. -/
def isNameChar (c : Char) : Bool := isLetter c || isAsciiDigit c || c = '_'

/-- The extent of a name. -/
def nameLength? : List Char → Option Nat
  | [] => none
  | c :: rest => if isLetter c then some (Numeral.runLength isNameChar rest + 1) else none

/-- A character that a version identifier is made of: anything but blanks and line ends. -/
def isVersionChar (c : Char) : Bool := !(c = ' ' || c = '\t' || c = '\r' || c = '\n')

/-- The extent of what opens a placeholder. -/
def openingLength? : List Char → Option Nat
  | c :: d :: _ => if isSigil c ∧ d = '\x7b' then some 2 else none
  | _ => none

/-- The extent of a fixed spelling. -/
def spellingLength? (spelling cs : List Char) : Option Nat :=
  if spelling.isPrefixOf cs then some spelling.length else none

/-- A length that must not be zero. -/
def positive? (n : Nat) : Option Nat := if n = 0 then none else some n

end Scan

/-! ## Tokens -/

/-- A numeric literal at the start of a text, as the front end recognises it. -/
def FrontEnd.scanNumber : FrontEnd → List Char → Option (NumeralKind × Nat)
  | .tree => Numeral.scanSeparately
  | .flat => Numeral.scanTogether

namespace Scan

/-- The keyword among those looked for that a whole word spells. -/
def keywordOf? (expect : Expect) (word : List Char) : Option Keyword :=
  Keyword.all.find? fun k => expect.contains (.keyword k) && k.spelling == word

/-- A name, or a keyword that is looked for. -/
def word? (expect : Expect) (cs : List Char) : Option (Terminal × Nat) :=
  if expect.contains .name then
    (nameLength? cs).map fun n =>
      (((keywordOf? expect (cs.take n)).map Terminal.keyword).getD .name, n)
  else
    Keyword.all.findSome? fun k =>
      if expect.contains (.keyword k) then
        (spellingLength? k.spelling cs).map (.keyword k, ·)
      else none

/-- A symbol that is looked for, the longest first. -/
def symbol? (expect : Expect) (cs : List Char) : Option (Terminal × Nat) :=
  Symbol.all.findSome? fun s =>
    if expect.contains (.symbol s) then (spellingLength? s.spelling cs).map (.symbol s, ·) else none

/-- A terminal of one class, if that is looked for. -/
def class? (expect : Expect) (t : Terminal) (length : List Char → Option Nat) (cs : List Char) :
    Option (Terminal × Nat) :=
  if expect.contains t then (length cs).map (t, ·) else none

/-- Literal text, if that is looked for. -/
def literal? (expect : Expect) (cs : List Char) : Option (Terminal × Nat) :=
  [Terminal.stringText .single, .commandText .heredoc, .stringText .double,
    .commandText .braces].findSome? fun t =>
      class? expect t (fun cs => positive? (match t with
        | .stringText q => stringTextLength q cs
        | .commandText style => commandTextLength style cs
        | _ => 0)) cs

/-- A numeric literal, if that is looked for. -/
def number? (fe : FrontEnd) (expect : Expect) (cs : List Char) : Option (Terminal × Nat) :=
  if expect.contains (.number .decimal) then
    (fe.scanNumber cs).map fun found => (.number found.1, found.2)
  else none

/-- A token that is not literal text. -/
def plain? (fe : FrontEnd) (expect : Expect) (cs : List Char) : Option (Terminal × Nat) :=
  number? fe expect cs
    <|> class? expect .opening openingLength? cs
    <|> class? expect (.quoted .single) (quotedLength? .single) cs
    <|> word? expect cs
    <|> class? expect (.quoted .double) (quotedLength? .double) cs
    <|> class? expect .versionWord (Numeral.runLength? isVersionChar) cs
    <|> class? expect (.mark .double) (spellingLength? [Quote.double.char]) cs
    <|> class? expect (.mark .single) (spellingLength? [Quote.single.char]) cs
    <|> symbol? expect cs

/-- The token of a found terminal, and the cursor behind it. -/
def takeToken (c : Cursor) (found : Terminal × Nat) : Token × Cursor :=
  (⟨found.1, c.rest.take found.2, c.pos⟩, c.advance found.2)

end Scan

/-- Finds the next token among the terminals looked for, or the end of the text; fails where
neither is, at the place behind the layout. -/
abbrev Scanner := Expect → Cursor → Except Cursor (Option Token × Cursor)

/-- The scanner of a front end. -/
def FrontEnd.next (fe : FrontEnd) : Scanner := fun expect c =>
  match Scan.literal? expect c.rest with
  | some found =>
    let (token, after) := Scan.takeToken c found
    .ok (some token, after)
  | none =>
    let c := c.advance (Scan.layoutLength false c.rest)
    if c.rest.isEmpty then .ok (none, c)
    else match Scan.plain? fe expect c.rest with
      | some found =>
        let (token, after) := Scan.takeToken c found
        .ok (some token, after)
      | none => .error c

/-! ## Stray text -/

/-- How much of a text belongs to a token that starts where no token was looked for. Numbers come
first, as far as the front end looks for them before all other text; what opens a placeholder
stands alone; all else is read as literal text, up to a mark or placeholder. -/
def FrontEnd.strayLength (fe : FrontEnd) (cs : List Char) : Nat :=
  let number := match fe with
    | .tree => [NumeralKind.float, .hexadecimal, .octal].findSome? (Numeral.lengthIn? · cs)
    | .flat => Numeral.lengthOfAny? cs
  (number <|> Scan.openingLength? cs <|> Scan.positive? (Scan.stringTextLength .single cs)
    <|> Scan.positive? (Scan.heredocTextLength cs)).getD 1

/-- Cuts a token of `n` characters at the first whitespace after its first character. -/
def firstWordLength (n : Nat) (cs : List Char) : Nat :=
  Numeral.runLength (!isBlank ·) ((cs.take n).drop 1) + 1

end Wdl
