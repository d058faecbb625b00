/-!
# Wdl.Text.Blank -- whitespace of every script

The table holds the characters of bidirectional class `WS`, `B` or `S` and the space separators:
the characters of the Unicode property `White_Space` and the four information separators
U+001C to U+001F.
-/

namespace Wdl

/-- The inclusive ranges of whitespace code points, ascending. -/
def blankRanges : List (Nat × Nat) :=
  [(0x09, 0x0D), (0x1C, 0x20), (0x85, 0x85), (0xA0, 0xA0), (0x1680, 0x1680), (0x2000, 0x200A),
   (0x2028, 0x2029), (0x202F, 0x202F), (0x205F, 0x205F), (0x3000, 0x3000)]

/-- A whitespace character of any script. -/
def isBlank (c : Char) : Bool :=
  blankRanges.any fun (lo, hi) => lo ≤ c.toNat && c.toNat ≤ hi

/-- Drops leading whitespace. -/
def trimStart (cs : List Char) : List Char := cs.dropWhile isBlank

/-- Drops trailing whitespace. -/
def trimEnd (cs : List Char) : List Char := (cs.reverse.dropWhile isBlank).reverse

/-- Drops whitespace on both sides. -/
def trim (cs : List Char) : List Char := trimEnd (trimStart cs)

/-- Drops whitespace on both sides of a string. -/
def trimmed (s : String) : String := String.ofList (trim s.toList)

end Wdl
