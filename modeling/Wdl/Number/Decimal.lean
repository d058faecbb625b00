import Wdl.Number.Binary64
import Wdl.Text.Digit

/-!
# Wdl.Number.Decimal -- floating-point numbers as decimal text

`Decimal` is a digit string with a power of ten. Reading rounds it to the nearest binary number.
Printing takes the fewest digits that read back to the same number, of these the nearest to it,
and lays them out positionally from 0.0001 up to below 10 ^ 16 and with an exponent outside.
-/

namespace Wdl

/-- The number `digits * 10 ^ exponent`. -/
structure Decimal where
  digits : Nat
  exponent : Int
deriving DecidableEq, Repr

namespace Decimal

/-- The number of decimal digits of a natural number. -/
def digitCount (n : Nat) : Nat := (Nat.toDigits 10 n).length

/-- The binary number nearest to a decimal one. Beyond the ends of the binary range the answer is
known from the number of digits alone. -/
def toBinary (negative : Bool) (d : Decimal) : Binary64 :=
  let top := digitCount d.digits + d.exponent
  if d.digits = 0 ∨ top < -330 then .ofWord negative 0
  else if 330 < top then .ofWord negative Binary64.infinityWord
  else
    let (n, m) := Binary64.scaleDecimal d.digits 1 d.exponent
    .ofRatio negative n m

/-! ## Reading -/

/-- Splits off the values of the leading decimal digits, of any script. -/
def takeDigits : List Char → List Nat × List Char
  | [] => ([], [])
  | c :: rest =>
    match decimalDigit? c with
    | some d => let (ds, after) := takeDigits rest; (d :: ds, after)
    | none => ([], c :: rest)

/-- Reads the exponent part of a number; without one the exponent is zero. -/
def readExponent : List Char → Int
  | 'e' :: rest | 'E' :: rest =>
    match rest with
    | '-' :: ds => -(ofDigits 10 (takeDigits ds).1 : Nat)
    | '+' :: ds => (ofDigits 10 (takeDigits ds).1 : Nat)
    | ds => (ofDigits 10 (takeDigits ds).1 : Nat)
  | _ => 0

/-- Reads digits, an optional fraction and an optional exponent. -/
def ofChars (cs : List Char) : Decimal :=
  let (whole, rest) := takeDigits cs
  match rest with
  | '.' :: rest =>
    let (fraction, rest) := takeDigits rest
    ⟨ofDigits 10 (whole ++ fraction), readExponent rest - fraction.length⟩
  | rest => ⟨ofDigits 10 whole, readExponent rest⟩

/-! ## The shortest digits -/

/-- The power of ten of the first digit of `n / d`. -/
def leadingPower (n d : Nat) : Int :=
  if d ≤ n then (digitCount (n / d) : Int) - 1
  else
    let k := digitCount (d / n)
    if d ≤ n * Nat.pow 10 (k - 1) then 1 - (k : Int) else -(k : Int)

/-- All digits of a finite magnitude; they read back whatever the number is. -/
def exact (x : Binary64) : Decimal :=
  if 0 ≤ x.exponent then ⟨x.significand * Nat.pow 2 x.exponent.toNat, 0⟩
  else ⟨x.significand * Nat.pow 5 (-x.exponent).toNat, x.exponent⟩

/-- A decimal that reads back to the magnitude of `x`. -/
def readsBack (x : Binary64) (d : Decimal) : Bool := (d.toBinary false).magnitude == x.magnitude

/-- The decimal of `count` digits that is nearest to `x`, among the two around `x` that read back;
an exact middle goes to the even one. -/
def withDigits? (x : Binary64) (count : Nat) : Option Decimal :=
  let (n, d) := x.toRatio
  let last := leadingPower n d - count + 1
  let (n, d) := Binary64.scaleDecimal n d (-last)
  let below : Decimal := ⟨n / d, last⟩
  let above : Decimal := ⟨n / d + 1, last⟩
  match readsBack x below, readsBack x above with
  | true, true => some (if Binary64.divNearest n d = n / d then below else above)
  | true, false => some below
  | false, true => some above
  | false, false => none

/-- The decimal with the fewest digits that reads back to the magnitude of `x`. Seventeen digits
always suffice. -/
def shortest (x : Binary64) : Decimal :=
  ((List.range 17).findSome? fun i => withDigits? x (i + 1)).getD (exact x)

/-! ## Layout -/

/-- Drops zeros at the end of a digit string and counts them. -/
def stripZeros (ds : List Char) : List Char × Nat :=
  let zeros := ds.reverse.takeWhile (· = '0')
  ((ds.reverse.drop zeros.length).reverse, zeros.length)

/-- A decimal exponent, with its sign and at least two digits. -/
def exponentText (p : Int) : List Char :=
  let ds := Nat.toDigits 10 p.natAbs
  'e' :: (if p < 0 then '-' else '+') :: (if ds.length < 2 then '0' :: ds else ds)

/-- Lays out a positive decimal: positional if the power of its first digit is at least -4 and
below 16, else with an exponent. A positional number always shows a fraction. -/
def layout (d : Decimal) : List Char :=
  let (ds, zeros) := stripZeros (Nat.toDigits 10 d.digits)
  let last := d.exponent + zeros
  let power := last + ds.length - 1
  if -4 ≤ power ∧ power < 16 then
    if 0 ≤ last then ds ++ List.replicate last.toNat '0' ++ ['.', '0']
    else if 0 ≤ power then
      let whole := (power + 1).toNat
      ds.take whole ++ '.' :: ds.drop whole
    else '0' :: '.' :: List.replicate (-power - 1).toNat '0' ++ ds
  else
    match ds with
    | [] => ['0', '.', '0']
    | [d] => d :: exponentText power
    | d :: more => d :: '.' :: more ++ exponentText power

end Decimal

namespace Binary64

/-- The text of a number without its sign. -/
def magnitudeText (x : Binary64) : List Char :=
  if x.isInfinite then ['i', 'n', 'f']
  else if x.magnitude = 0 then ['0', '.', '0']
  else (Decimal.shortest x).layout

/-- The text of a number: the shortest that reads back to it. -/
def toText (x : Binary64) : String :=
  String.ofList (if x.negative then '-' :: x.magnitudeText else x.magnitudeText)

/-- Reads an unsigned number. -/
def ofChars (cs : List Char) : Binary64 := (Decimal.ofChars cs).toBinary false

end Binary64

end Wdl
