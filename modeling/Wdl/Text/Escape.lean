import Wdl.Text.CodePoint
import Wdl.Text.Digit
import Wdl.Text.Source

/-!
# Wdl.Text.Escape -- backslash escapes in literal text

A literal is decoded run by run: each maximal run of the characters U+0001 to U+007F is decoded on
its own, all other characters stand for themselves. Within a run a backslash is rewritten together
with what follows it, and the result is never looked at again. A backslash that ends its run, a
numeric escape with too few digits or beyond the last code point, and a name in braces that is
malformed or that no character has are errors.

* `afterBackslash` reads one escape and gives its `Decoded` text and width: `octalEscape` and
  `hexEscape` give the code point of a number, surrogates included, and `nameEscape` gives the
  character of a name;
* `decodeRun` decodes a run, `stretches` cuts a text into runs and the stretches between them, and
  `decode` decodes a whole text.

Which characters have names, and which, is a matter of the Unicode character database. It is not
part of this library: `CharacterNames` stands for its table of names, and everything that decodes
takes such a table.
-/

namespace Wdl

/-- The characters that runs are made of. -/
def Escape.isRunChar (c : Char) : Bool := isAscii c && c != '\x00'

/-- A table of the names of characters. Names are spelled in ASCII, without backslashes. -/
structure CharacterNames where
  /-- The character of a name. -/
  find : List Char → Option Char
  spelled : ∀ name c, find name = some c → ∀ d ∈ name, Escape.isRunChar d = true ∧ d ≠ '\\'

/-- The table in which no character has a name. -/
def CharacterNames.none : CharacterNames where
  find _ := .none
  spelled _ _ found := by cases found

instance : Inhabited CharacterNames := ⟨.none⟩

namespace Escape

/-! ## One escape -/

/-- What an escape stands for, and how many characters it takes after the backslash. -/
structure Decoded where
  text : Text
  width : Nat
deriving DecidableEq, Repr

/-- The number written by exactly `count` hexadecimal digits at the start of a text. -/
def hexNumber? (count : Nat) (cs : List Char) : Option Nat :=
  let digits := cs.take count
  if digits.length = count then (digits.mapM hexDigit?).map (ofDigits 16) else none

/-- An escape that gives its code point by `count` hexadecimal digits after one letter. -/
def hexEscape (count : Nat) (rest : List Char) : Option Decoded :=
  match hexNumber? count rest with
  | some n => (CodePoint.ofNat? n).map fun p => ⟨[p], count + 1⟩
  | none => none

/-- The octal digits, at most three, at the start of a text. -/
def octalDigits (cs : List Char) : List Char := (cs.take 3).takeWhile isOctalDigit

/-- The number of some octal digits. -/
def octalNumber (digits : List Char) : Nat :=
  ofDigits 8 (digits.map fun d => d.toNat - '0'.toNat)

/-- An escape that gives its code point by up to three octal digits, so that it is a character. -/
def octalEscape (cs : List Char) : Decoded :=
  let digits := octalDigits cs
  ⟨[.char (Char.ofNat (octalNumber digits))], digits.length⟩

/-- An escape that gives its character by a name in braces after one letter. -/
def nameEscape (names : CharacterNames) : List Char → Option Decoded
  | '\x7b' :: rest =>
    let name := rest.takeWhile (· != '\x7d')
    if name = [] ∨ name.length = rest.length then none
    else (names.find name).map fun c => ⟨[.char c], name.length + 3⟩
  | _ => none

/-- The letters that name a control character. -/
def controls : List (Char × Char) :=
  [('a', '\x07'), ('b', '\x08'), ('f', '\x0C'), ('n', '\n'), ('r', '\r'), ('t', '\t'),
   ('v', '\x0B')]

/-- Decodes what follows a backslash. -/
def afterBackslash (names : CharacterNames) : List Char → Option Decoded
  | [] => none
  | c :: rest =>
    if c = '\n' then some ⟨[], 1⟩
    else if c = '\\' ∨ c = '\'' ∨ c = '"' then some ⟨[.char c], 1⟩
    else if isOctalDigit c then some (octalEscape (c :: rest))
    else if c = 'x' then hexEscape 2 rest
    else if c = 'u' then hexEscape 4 rest
    else if c = 'U' then hexEscape 8 rest
    else if c = 'N' then nameEscape names rest
    else match controls.lookup c with
      | some control => some ⟨[.char control], 1⟩
      | none => some ⟨[.char '\\', .char c], 1⟩

/-! ## One run, and a whole text -/

/-- Decodes a run. -/
def decodeRun (names : CharacterNames) : List Char → Option Text
  | [] => some []
  | c :: rest =>
    if c = '\\' then
      match afterBackslash names rest with
      | none => none
      | some d => (decodeRun names (rest.drop d.width)).map (d.text ++ ·)
    else (decodeRun names rest).map (.char c :: ·)
termination_by cs => cs.length
decreasing_by all_goals simp only [List.length_drop, List.length_cons]; omega

/-- Cuts a text into the maximal stretches of run characters and of other characters. -/
def stretches : List Char → List (Bool × List Char)
  | [] => []
  | c :: rest =>
    match stretches rest with
    | (kind, cs) :: more =>
      if kind = isRunChar c then (kind, c :: cs) :: more
      else (isRunChar c, [c]) :: (kind, cs) :: more
    | [] => [(isRunChar c, [c])]

/-- Decodes a run; other characters stand for themselves. -/
def decodeStretch (names : CharacterNames) : Bool × List Char → Option Text
  | (true, run) => decodeRun names run
  | (false, others) => some (Text.ofChars others)

/-- Decodes each run of a text and copies all other characters. -/
def decode (cs : List Char) (names : CharacterNames := .none) : Option Text :=
  ((stretches cs).mapM (decodeStretch names)).map List.flatten

end Escape

end Wdl
