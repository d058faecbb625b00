import Wdl.Proofs.Notations

/-!
# Wdl.Proofs.Integers -- what is found as a number, and its value

What a scanner finds as a number is the text of a floating-point number, or that of an integer in
one notation, which the text alone shows. An integer has the value that its digits write if that is
in range, and is refused otherwise. Digits are counted before they are read, but digits beyond the
count write no integer in range, so that only the reason depends on it.

* `Numeral.IsInteger radix text` is the text of an integer in a notation. `scanSeparately_integer`
  and `isInteger_take` say that these are just the texts that are found in it.
* `Build.numberValue_integer` is the value of such a text, and `Build.beyond` what is wrong with it
  otherwise. That the count of digits (`Violation.maxDigits`) refuses nothing in range is
  `maxInt_lt_of_long`.
* `FrontEnd.scanNumber_value` puts these together, for both front ends at every place of a text.
-/

namespace Wdl

open Scan

/-- The numbers that a notation of integers is for. -/
def Radix.kind : Radix → NumeralKind
  | .octal => .octal
  | .decimal => .decimal
  | .hexadecimal => .hexadecimal

namespace Numeral

variable {radix : Radix} {text rest : List Char}

/-! ## The texts of integers

The notations overlap in their digits but not in their texts: a zero in front makes an integer
octal, unless it is the only digit, and the prefix makes it hexadecimal. -/

/-- The text of an integer in a notation. -/
inductive IsInteger : Radix → List Char → Prop
  | zero : IsInteger .decimal ['0']
  | decimal {d : Char} {ds : List Char} : '1' ≤ d ∧ d ≤ '9' → (∀ c ∈ ds, isAsciiDigit c = true) →
      IsInteger .decimal (d :: ds)
  | octal {ds : List Char} : ds ≠ [] → (∀ c ∈ ds, isOctalDigit c = true) →
      IsInteger .octal ('0' :: ds)
  | hexadecimal {x : Char} {ds : List Char} : x = 'x' ∨ x = 'X' → ds ≠ [] →
      (∀ c ∈ ds, isHexDigit c = true) → IsInteger .hexadecimal ('0' :: x :: ds)

/-- The text of an integer is found as one of its notation. -/
theorem scanSeparately_integer (h : IsInteger radix text) (ended : Ended rest) :
    scanSeparately (text ++ rest) = some (radix.kind, text.length) := by
  cases h with
  | zero => exact scanSeparately_zero ended
  | decimal first digits => exact scanSeparately_decimal first digits ended
  | octal ne digits => exact scanSeparately_octal ne digits ended
  | hexadecimal marked ne digits => exact scanSeparately_hexadecimal marked ne digits ended.cut

/-- What has an extent in a notation of integers is the text of one. -/
theorem isInteger_take {cs : List Char} {n : Nat} (h : lengthIn? radix.kind cs = some n) :
    IsInteger radix (cs.take n) := by
  cases radix with
  | octal =>
    obtain ⟨run, rest, rfl, rfl, ne, digits⟩ := octalLength?_shape h
    rw [List.take_left' (by simp)]
    exact .octal ne digits
  | decimal =>
    obtain ⟨run, rest, rfl, rfl, rfl | ⟨d, ds, rfl, first, digits⟩⟩ := decimalLength?_shape h
    · exact .zero
    · rw [List.take_left]
      exact .decimal first digits
  | hexadecimal =>
    obtain ⟨x, run, rest, rfl, marked, rfl, ne, digits⟩ := hexLength?_shape h
    rw [List.take_left' (by simp)]
    exact .hexadecimal marked ne digits

/-- A number is found with its extent in the notation that it is found in. -/
theorem lengthIn?_of_scan {kind : NumeralKind} {cs : List Char} {n : Nat}
    (h : scanSeparately cs = some (kind, n)) : lengthIn? kind cs = some n := by
  obtain ⟨kind', -, found⟩ := List.exists_of_findSome?_eq_some h
  obtain ⟨m, size, eq⟩ := Option.map_eq_some_iff.1 found
  cases eq
  exact size

/-! ## Long integers -/

/-- Digits of which the first is not zero write at least the power of the base for the others. -/
theorem pow_le_ofDigits (b : Nat) {d : Nat} (pos : 0 < d) (ds : List Nat) :
    Nat.pow b ds.length ≤ ofDigits b (d :: ds) := by
  induction ds using List.reverseRecOn with
  | nil =>
    have one : ofDigits b [d] = d := by simp [ofDigits]
    rw [one]
    exact pos
  | append_singleton ds e ih =>
    rw [← List.cons_append, ofDigits_append, List.length_append, List.length_singleton]
    exact Nat.le_add_right_of_le (Nat.mul_le_mul_right b ih)

/-- Decimal digits are hexadecimal ones. -/
theorem isHexDigit_of_ascii {c : Char} (h : isAsciiDigit c = true) : isHexDigit c = true := by
  simp only [isAsciiDigit, Bool.and_eq_true, decide_eq_true_eq] at h
  rw [isHexDigit, hexDigit?, if_pos h, Option.isSome_some]

/-- The digits from one to nine have values above zero. -/
theorem hexDigit?_nonzero {d : Char} (first : '1' ≤ d ∧ d ≤ '9') :
    ∃ k, hexDigit? d = some k ∧ 0 < k := by
  have low : 0x31 ≤ d.toNat := first.1
  refine ⟨d.toNat - '0'.toNat, if_pos ⟨Char.le_trans (by decide) first.1, first.2⟩, ?_⟩
  exact Nat.sub_pos_of_lt low

/-- A decimal integer with more digits than are read is out of range. -/
theorem maxInt_lt_of_long (h : IsInteger .decimal text)
    (long : Violation.maxDigits < text.length) : maxInt < intValue .decimal text := by
  cases h with
  | zero => exact absurd long (by decide)
  | @decimal d ds first digits =>
    obtain ⟨k, value, pos⟩ := hexDigit?_nonzero first
    have each : (ds.filterMap hexDigit?).length = ds.length :=
      List.filterMap_length_eq_length.2 fun c hc => isHexDigit_of_ascii (digits c hc)
    have many : 19 ≤ ds.length := by
      rw [List.length_cons, Violation.maxDigits] at long
      omega
    calc maxInt < Nat.pow 10 19 := by decide
      _ ≤ Nat.pow 10 ds.length := Nat.pow_le_pow_right (by decide) many
      _ = Nat.pow 10 (ds.filterMap hexDigit?).length := by rw [each]
      _ ≤ ofDigits 10 (k :: ds.filterMap hexDigit?) := pow_le_ofDigits 10 pos _
      _ = intValue .decimal (d :: ds) := by rw [intValue, List.filterMap_cons, value]

end Numeral

open Numeral

/-! ## The values of numbers -/

/-- What is wrong with an integer that is out of range. -/
def Build.beyond (radix : Radix) (text : List Char) : Violation :=
  if radix = .decimal ∧ Violation.maxDigits < text.length then .tooManyDigits text.length
  else .intTooGreat (String.ofList text)

variable {radix : Radix} {text : List Char}

/-- The digits of an integer are read if their value is in range. -/
theorem Build.intLiteral_integer (h : IsInteger radix text) (r : Range) :
    intLiteral r radix text =
      if intValue radix text ≤ maxInt then .ok (intValue radix text)
      else violate (beyond radix text) r := by
  unfold intLiteral beyond
  split
  · rename_i long
    obtain ⟨rfl, long⟩ := long
    rw [if_neg (Nat.not_le_of_lt (maxInt_lt_of_long h long))]
  · simp only
    split
    · rename_i great
      rw [if_neg (Nat.not_le_of_lt great)]
    · rename_i small
      rw [if_pos (Nat.le_of_not_lt small)]

/-- An integer has the value that its digits write, if it is in range, and is refused otherwise. -/
theorem Build.numberValue_integer (h : IsInteger radix text) (r : Range) :
    numberValue ⟨r, radix.kind, text⟩ =
      if intValue radix text ≤ maxInt then .ok (.int (intValue radix text) radix)
      else violate (beyond radix text) r := by
  have literal := intLiteral_integer h r
  cases radix <;>
  · simp only [numberValue, Radix.kind, literal]
    split <;> rfl

/-- At every place of every text the front ends find the same number, or none. Its text shows the
notation that it was found in, and either front end takes it as the same number or refuses it for
the same reason: a floating-point number is never refused, and an integer just if it is out of
range. -/
theorem FrontEnd.scanNumber_value (fe fe' : FrontEnd) (cs : List Char) :
    fe.scanNumber cs = fe'.scanNumber cs ∧
      ∀ kind n, fe.scanNumber cs = some (kind, n) →
        classify (cs.take n) = kind ∧
          (kind = .float ∧ (∀ r, Build.numberValue ⟨r, kind, cs.take n⟩ =
              .ok (.float (Binary64.ofChars (cs.take n)))) ∨
            ∃ radix : Radix, kind = radix.kind ∧ IsInteger radix (cs.take n) ∧
              ∀ r, Build.numberValue ⟨r, kind, cs.take n⟩ =
                if intValue radix (cs.take n) ≤ maxInt then
                  .ok (.int (intValue radix (cs.take n)) radix)
                else Build.violate (Build.beyond radix (cs.take n)) r) := by
  refine ⟨by rw [fe.scanNumber_eq, fe'.scanNumber_eq], fun kind n found => ?_⟩
  rw [fe.scanNumber_eq] at found
  have size := lengthIn?_of_scan found
  refine ⟨classify_take size, ?_⟩
  have integer : ∀ radix : Radix, kind = radix.kind → IsInteger radix (cs.take n) := by
    rintro radix rfl
    exact isInteger_take size
  cases kind with
  | float => exact .inl ⟨rfl, fun _ => rfl⟩
  | hexadecimal =>
    have h := integer .hexadecimal rfl
    exact .inr ⟨.hexadecimal, rfl, h, Build.numberValue_integer h⟩
  | octal =>
    have h := integer .octal rfl
    exact .inr ⟨.octal, rfl, h, Build.numberValue_integer h⟩
  | decimal =>
    have h := integer .decimal rfl
    exact .inr ⟨.decimal, rfl, h, Build.numberValue_integer h⟩

/-- Of a decimal integer that has too many digits, only that is reported. -/
example : Build.beyond .decimal (List.replicate 4301 '9') = .tooManyDigits 4301 := by
  decide +kernel

end Wdl
