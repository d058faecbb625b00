import Wdl.Text.CodePoint
import Wdl.Text.Printable

/-!
# Wdl.Text.Quoted -- texts between quotation marks

`Text.quoted` writes a decoded text for people: between apostrophes, or between double marks if it
holds apostrophes and no double marks (`markFor`); what does not show, surrogates included, is
written by its code point (`codePointEscape`). `quoted` does so with a string. `jsonString` writes a
string for JSON readers, in ASCII only, by the UTF-16 units of its characters (`unitEscapes`).
-/

namespace Wdl

/-- A number in hexadecimal, padded with zeros to a width. -/
def hexPadded (width n : Nat) : List Char :=
  let ds := Nat.toDigits 16 n
  List.replicate (width - ds.length) '0' ++ ds

/-! ## For people -/

/-- The mark that a string is written between. -/
def markFor (cs : List Char) : Char := if cs.contains '\'' && !cs.contains '"' then '"' else '\''

/-- A character that does not show, by its code point. -/
def codePointEscape (c : Char) : List Char :=
  if c.toNat < 0x100 then '\\' :: 'x' :: hexPadded 2 c.toNat
  else if c.toNat < 0x10000 then '\\' :: 'u' :: hexPadded 4 c.toNat
  else '\\' :: 'U' :: hexPadded 8 c.toNat

/-- One character of a string between marks. -/
def quotedChar (mark c : Char) : List Char :=
  if c = mark ∨ c = '\\' then ['\\', c]
  else if c = '\n' then ['\\', 'n']
  else if c = '\r' then ['\\', 'r']
  else if c = '\t' then ['\\', 't']
  else if isPrintable c then [c]
  else codePointEscape c

/-- A string between marks. -/
def quoted (s : String) : String :=
  let cs := s.toList
  let mark := markFor cs
  String.ofList (mark :: cs.flatMap (quotedChar mark) ++ [mark])

/-- One code point of a text between marks. -/
def quotedPoint (mark : Char) : CodePoint → List Char
  | .char c => quotedChar mark c
  | .surrogate n => '\\' :: 'u' :: hexPadded 4 (0xD800 + n)

/-- A decoded text between marks. -/
def Text.quoted (t : Text) : String :=
  let mark := markFor t.chars
  String.ofList (mark :: t.flatMap (quotedPoint mark) ++ [mark])

/-! ## For JSON readers -/

/-- The UTF-16 units of a character, as JSON escapes. -/
def unitEscapes (c : Char) : List Char :=
  let n := c.toNat
  if n < 0x10000 then '\\' :: 'u' :: hexPadded 4 n
  else
    let offset := n - 0x10000
    '\\' :: 'u' :: hexPadded 4 (0xD800 + offset / 0x400)
      ++ '\\' :: 'u' :: hexPadded 4 (0xDC00 + offset % 0x400)

/-- One character of a JSON string. -/
def jsonChar (c : Char) : List Char :=
  if c = '"' ∨ c = '\\' then ['\\', c]
  else if c = '\n' then ['\\', 'n']
  else if c = '\r' then ['\\', 'r']
  else if c = '\t' then ['\\', 't']
  else if c = '\x08' then ['\\', 'b']
  else if c = '\x0C' then ['\\', 'f']
  else if 0x20 ≤ c.toNat ∧ c.toNat < 0x7F then [c]
  else unitEscapes c

/-- A JSON string. -/
def jsonString (s : String) : String := String.ofList ('"' :: s.toList.flatMap jsonChar ++ ['"'])

end Wdl
