/-!
# Wdl.Text.Utf8 -- bytes as text

`decode` reads bytes in the UTF-8 encoding up to the first fault. A fault covers the bytes that
begin a character and could still have been continued up to where that failed.
-/

namespace Wdl.Utf8

/-- What can be wrong with bytes. -/
inductive Flaw where
  /-- No character starts with the byte. -/
  | badStart
  /-- The character that was begun cannot go on like this. -/
  | badContinuation
  /-- The bytes end within a character. -/
  | cutOff
deriving DecidableEq, Repr

/-- How a flaw is called. -/
def Flaw.text : Flaw → String
  | .badStart => "invalid start byte"
  | .badContinuation => "invalid continuation byte"
  | .cutOff => "unexpected end of data"

/-- A fault: the faulty bytes, at least one, where they start, and what is wrong with them. -/
structure Fault where
  position : Nat
  first : UInt8
  more : Nat
  flaw : Flaw
deriving DecidableEq, Repr

/-- A byte by its two hexadecimal digits. -/
def hexByte (b : UInt8) : String :=
  let ds := Nat.toDigits 16 b.toNat
  String.ofList (if ds.length < 2 then '0' :: ds else ds)

/-- The wording of a fault. -/
def Fault.message (f : Fault) : String :=
  "'utf-8' codec can't decode "
    ++ (if f.more = 0 then "byte 0x" ++ hexByte f.first ++ " in position " ++ toString f.position
        else "bytes in position " ++ toString f.position ++ "-" ++ toString (f.position + f.more))
    ++ ": " ++ f.flaw.text

/-! ## Characters of several bytes -/

/-- How a character goes on after its first byte: the range of its second byte, and the number of
bytes after the second. -/
structure Lead where
  low : Nat
  high : Nat
  rest : Nat
deriving DecidableEq, Repr

/-- How the characters go on that start with a byte above 127; absent if there are none. -/
def lead? (b : UInt8) : Option Lead :=
  let n := b.toNat
  if n < 0xC2 then none
  else if n < 0xE0 then some ⟨0x80, 0xBF, 0⟩
  else if n < 0xF0 then
    some ⟨if n = 0xE0 then 0xA0 else 0x80, if n = 0xED then 0x9F else 0xBF, 1⟩
  else if n < 0xF5 then
    some ⟨if n = 0xF0 then 0x90 else 0x80, if n = 0xF4 then 0x8F else 0xBF, 2⟩
  else none

/-- The payload of the first byte of a character with `rest` bytes after the second. -/
def leadPayload (rest : Nat) (b : UInt8) : Nat :=
  b.toNat % (match rest with | 0 => 0x20 | 1 => 0x10 | _ => 0x08)

/-- Reads up to `count` continuation bytes onto a payload. Gives the payload and how many bytes
were missing. -/
def readTail : Nat → Nat → List UInt8 → Nat × Nat
  | 0, payload, _ => (payload, 0)
  | count + 1, payload, [] => (payload, count + 1)
  | count + 1, payload, b :: rest =>
    if 0x80 ≤ b.toNat ∧ b.toNat ≤ 0xBF then readTail count (payload * 0x40 + b.toNat % 0x40) rest
    else (payload, count + 1)

/-- A character at the start of some bytes and its width, or the fault of its first `more + 1`
bytes. -/
inductive Step where
  | char (c : Char) (width : Nat)
  | fault (more : Nat) (flaw : Flaw)

/-- Reads the character that starts with the byte `b`, of which `rest` are the bytes after it. -/
def readChar (b : UInt8) (rest : List UInt8) : Step :=
  if b.toNat < 0x80 then .char (Char.ofNat b.toNat) 1
  else
    match lead? b with
    | none => .fault 0 .badStart
    | some lead =>
      match rest with
      | [] => .fault 0 .cutOff
      | second :: tail =>
        if second.toNat < lead.low ∨ lead.high < second.toNat then .fault 0 .badContinuation
        else
          let payload := leadPayload lead.rest b * 0x40 + second.toNat % 0x40
          let (code, missing) := readTail lead.rest payload tail
          if missing = 0 then .char (Char.ofNat code) (lead.rest + 2)
          else
            let good := lead.rest - missing
            .fault (good + 1) (if tail.length ≤ good then .cutOff else .badContinuation)

/-! ## Texts -/

/-- The characters of some bytes up to the first fault, and the fault if there is one. -/
structure Decoding where
  chars : List Char
  fault? : Option Fault
deriving Repr

/-- Decodes bytes of which the first stands at `position`. -/
def decodeFrom (position : Nat) : Nat → List UInt8 → Decoding
  | _, [] => ⟨[], none⟩
  | skip + 1, _ :: rest => decodeFrom (position + 1) skip rest
  | 0, b :: rest =>
    match readChar b rest with
    | .char c width =>
      let d := decodeFrom (position + 1) (width - 1) rest
      { d with chars := c :: d.chars }
    | .fault more flaw => ⟨[], some ⟨position, b, more, flaw⟩⟩

/-- Decodes bytes. -/
def decode (bytes : List UInt8) : Decoding := decodeFrom 0 0 bytes

/-- The whole text of some bytes, or the first fault. -/
def toText (bytes : List UInt8) : Except Fault String :=
  let d := decode bytes
  match d.fault? with
  | none => .ok (String.ofList d.chars)
  | some fault => .error fault

end Wdl.Utf8
