import Wdl.Text.Digit

/-!
# Wdl.Number.Numeral -- the notations of numeric literals

A literal is a floating-point number, or an integer in hexadecimal, octal or decimal notation.
There are two ways to recognise one. `scanSeparately` tries one notation after the other;
`scanTogether` finds the extent of a literal of any notation and `classify` tells from its text
alone which notation it is.
-/

namespace Wdl

/-- The notations of numeric literals. -/
inductive NumeralKind where
  | float
  | hexadecimal
  | octal
  | decimal
deriving DecidableEq, Repr, Inhabited

/-- The notations of integers. -/
inductive Radix where
  | octal
  | decimal
  | hexadecimal
deriving DecidableEq, Repr, Inhabited

/-- The base of a notation. -/
def Radix.base : Radix → Nat
  | .octal => 8
  | .decimal => 10
  | .hexadecimal => 16

/-- The greatest integer a literal may write. -/
def maxInt : Nat := Nat.pow 2 63 - 1

namespace Numeral

/-! ## The extent of a literal -/

/-- The number of characters of a class at the start of a text. -/
def runLength (p : Char → Bool) (cs : List Char) : Nat := (cs.takeWhile p).length

/-- The length of a class run that must not be empty. -/
def runLength? (p : Char → Bool) (cs : List Char) : Option Nat :=
  if runLength p cs = 0 then none else some (runLength p cs)

/-- The extent of an exponent: a letter, an optional sign, and digits. -/
def exponentLength? : List Char → Option Nat
  | [] => none
  | e :: rest =>
    if e = 'e' ∨ e = 'E' then
      match rest with
      | [] => none
      | sign :: digits =>
        if sign = '+' ∨ sign = '-' then (runLength? isDecimalDigit digits).map (· + 2)
        else (runLength? isDecimalDigit rest).map (· + 1)
    else none

/-- The extent of digits with a point, which has a digit on at least one side. -/
def pointLength? (cs : List Char) : Option Nat :=
  let whole := runLength isDecimalDigit cs
  match cs.drop whole with
  | '.' :: rest =>
    let fraction := runLength isDecimalDigit rest
    if whole = 0 ∧ fraction = 0 then none else some (whole + 1 + fraction)
  | _ => none

/-- The extent of a number with a point and perhaps an exponent. -/
def fractionLength? (cs : List Char) : Option Nat :=
  (pointLength? cs).map fun n => n + (exponentLength? (cs.drop n)).getD 0

/-- The extent of digits with an exponent and without a point. -/
def scientificLength? (cs : List Char) : Option Nat :=
  (runLength? isDecimalDigit cs).bind fun n => (exponentLength? (cs.drop n)).map (n + ·)

/-- The extent of a hexadecimal integer. -/
def hexLength? : List Char → Option Nat
  | z :: x :: rest =>
    if z = '0' ∧ (x = 'x' ∨ x = 'X') then (runLength? isHexDigit rest).map (· + 2) else none
  | _ => none

/-- The extent of an octal integer: a zero with more octal digits. -/
def octalLength? : List Char → Option Nat
  | z :: rest => if z = '0' then (runLength? isOctalDigit rest).map (· + 1) else none
  | [] => none

/-- The extent of a decimal integer: a zero alone, or digits of which the first is not zero. -/
def decimalLength? : List Char → Option Nat
  | d :: rest =>
    if d = '0' then some 1
    else if '1' ≤ d ∧ d ≤ '9' then some (runLength isAsciiDigit rest + 1)
    else none
  | [] => none

/-- The extent of a literal in one notation. -/
def lengthIn? : NumeralKind → List Char → Option Nat
  | .float, cs => (fractionLength? cs).or (scientificLength? cs)
  | .hexadecimal, cs => hexLength? cs
  | .octal, cs => octalLength? cs
  | .decimal, cs => decimalLength? cs

/-! ## The two ways to recognise a literal -/

/-- The notations in the order in which they are tried. -/
def kinds : List NumeralKind := [.float, .hexadecimal, .octal, .decimal]

/-- The first notation that a literal at the start of a text is in, with its extent. -/
def scanSeparately (cs : List Char) : Option (NumeralKind × Nat) :=
  kinds.findSome? fun kind => (lengthIn? kind cs).map (kind, ·)

/-- The forms of a literal, all notations together, in the order in which they are tried. -/
def forms : List (List Char → Option Nat) :=
  [fractionLength?, scientificLength?, hexLength?, octalLength?, decimalLength?]

/-- The extent of a literal of any notation. -/
def lengthOfAny? (cs : List Char) : Option Nat := forms.findSome? fun form => form cs

/-- The notation of a literal, told from its text. -/
def classify (text : List Char) : NumeralKind :=
  if text.take 2 = ['0', 'x'] ∨ text.take 2 = ['0', 'X'] then .hexadecimal
  else if text.any fun c => c = '.' || c = 'e' || c = 'E' then .float
  else if 1 < text.length ∧ text.head? = some '0' then .octal
  else .decimal

/-- The extent of a literal of any notation, with the notation its text shows. -/
def scanTogether (cs : List Char) : Option (NumeralKind × Nat) :=
  (lengthOfAny? cs).map fun n => (classify (cs.take n), n)

/-! ## The value of an integer literal -/

/-- The number that a literal in the given notation writes. -/
def intValue (radix : Radix) (text : List Char) : Nat :=
  match radix with
  | .hexadecimal => ofDigits 16 ((text.drop 2).filterMap hexDigit?)
  | .octal => ofDigits 8 (text.filterMap hexDigit?)
  | .decimal => ofDigits 10 (text.filterMap hexDigit?)

end Numeral

end Wdl
