/-!
# Wdl.Number.Binary64 -- floating-point numbers of 64 bits, without NaN

A number is a sign and the remaining 63 bits of its IEEE 754 word. In this form the finite
magnitudes and infinity are consecutive natural numbers in the order of their values, so rounding
is arithmetic on naturals: `ofRatio` is the magnitude nearest to a quotient, an exact half going
to the even neighbour. No machine floating-point operation is involved.
-/

namespace Wdl

namespace Binary64

/-- The magnitude word of infinity; all smaller words are finite. -/
def infinityWord : Nat := 2047 * Nat.pow 2 52

/-- The exponent of the last place of the numbers nearest to zero. -/
def leastExponent : Int := -1074

end Binary64

/-- A floating-point number: its sign, and its word below the sign bit. -/
structure Binary64 where
  negative : Bool
  magnitude : Nat
  magnitude_le : magnitude ≤ Binary64.infinityWord
deriving DecidableEq, Repr

namespace Binary64

instance : Inhabited Binary64 := ⟨⟨false, 0, Nat.zero_le _⟩⟩

/-- The number with the given sign and word; larger words count as infinity. -/
def ofWord (negative : Bool) (word : Nat) : Binary64 :=
  ⟨negative, min word infinityWord, Nat.min_le_right _ _⟩

/-- Changes the sign, also that of zero. -/
def neg (x : Binary64) : Binary64 := { x with negative := !x.negative }

/-- Neither number has a value between it and the other; both zeros are equal. -/
def sameValue (x y : Binary64) : Bool :=
  x.magnitude == y.magnitude && (x.negative == y.negative || x.magnitude == 0)

/-- Infinity of either sign. -/
def isInfinite (x : Binary64) : Bool := x.magnitude == infinityWord

/-! ## The value of a word -/

/-- The significand of a magnitude. -/
def significand (x : Binary64) : Nat :=
  if x.magnitude < Nat.pow 2 52 then x.magnitude else Nat.pow 2 52 + x.magnitude % Nat.pow 2 52

/-- The power of two that the significand counts. -/
def exponent (x : Binary64) : Int :=
  if x.magnitude < Nat.pow 2 52 then leastExponent
  else (x.magnitude / Nat.pow 2 52 : Nat) - 1 + leastExponent

/-- The quotient `n / d` times `2 ^ e`, again as a quotient. -/
def scaleBinary (n d : Nat) (e : Int) : Nat × Nat :=
  if 0 ≤ e then (n * Nat.pow 2 e.toNat, d) else (n, d * Nat.pow 2 (-e).toNat)

/-- The quotient `n / d` times `10 ^ e`, again as a quotient. -/
def scaleDecimal (n d : Nat) (e : Int) : Nat × Nat :=
  if 0 ≤ e then (n * Nat.pow 10 e.toNat, d) else (n, d * Nat.pow 10 (-e).toNat)

/-- A finite magnitude as a quotient. -/
def toRatio (x : Binary64) : Nat × Nat := scaleBinary x.significand 1 x.exponent

/-- The integer that a number is, if it is one. -/
def whole? (x : Binary64) : Option Int :=
  let (n, d) := x.toRatio
  if x.isInfinite ∨ n % d ≠ 0 then none
  else some (if x.negative then -(n / d : Nat) else (n / d : Nat))

/-! ## Rounding -/

/-- The natural number nearest to `n / d`; an exact half goes to the even neighbour. -/
def divNearest (n d : Nat) : Nat :=
  let q := n / d
  let twice := 2 * (n % d)
  if twice < d then q else if d < twice then q + 1 else q + q % 2

/-- The exponent of the last place of the magnitudes around `n / d`: the least one, or the one at
which the quotient has 53 binary digits. -/
def placeOf (n d : Nat) : Int :=
  let guess := max leastExponent ((Nat.log2 n : Int) - Nat.log2 d - 53)
  let (n', d') := scaleBinary n d (-guess)
  if n' / d' < Nat.pow 2 53 then guess else guess + 1

/-- The word of the magnitude nearest to `n / d`. Where rounding carries into a new binary digit,
so does the word. -/
def wordOfRatio (n d : Nat) : Nat :=
  let place := placeOf n d
  let (n', d') := scaleBinary n d (-place)
  (place - leastExponent).toNat * Nat.pow 2 52 + divNearest n' d'

/-- The number nearest to `n / d`. -/
def ofRatio (negative : Bool) (n d : Nat) : Binary64 := ofWord negative (wordOfRatio n d)

end Binary64

end Wdl
