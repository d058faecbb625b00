import Wdl.Proofs.Lexemes
import Wdl.Proofs.Wordings

/-!
# Wdl.Proofs.Notations -- what is written as a number is read as that number

The numeral of an integer is found as a number of its notation, up to its last digit, and has the
value that it was written for; the text of a floating-point number is found as such. All that
matters of the text behind is that no character there could go on with a number.

* `Ended rest` and `Cut rest` are about the text behind a number. Behind a number that is `Cut`,
  only a point could go on with it; behind one that is `Ended`, nothing.
* `scanSeparately_decimal`, `scanSeparately_octal` and `scanSeparately_hexadecimal` say what the
  numeral of a notation is found as, and `scanSeparately_numeralOf` puts them together for
  `numeralOf`.
* `Build.numberValue_numeralOf` says which value it has, and `Numeral.scanSeparately_float` is about
  the text of a floating-point number.
-/

namespace Wdl

open Scan

/-! ## Where numbers end

Names go on with ASCII digits and letters, so one condition on names covers every class of digits
that is made of them (`stops`). The digits of other scripts, which a floating-point number may have,
are asked for apart. -/

/-- No number goes on where the text goes on. -/
def Ended (rest : List Char) : Prop :=
  ∀ c ∈ rest.head?, isNameChar c = false ∧ isDecimalDigit c = false ∧ c ≠ '.'

/-- No digits and no word go on where the text goes on; a point may stand there. -/
def Cut (rest : List Char) : Prop :=
  ∀ c ∈ rest.head?, isNameChar c = false ∧ isDecimalDigit c = false

/-- Names go on with digits. -/
theorem isNameChar_of_ascii {c : Char} (h : isAsciiDigit c = true) : isNameChar c = true := by
  simp [isNameChar, h]

/-- Names go on with hexadecimal digits. -/
theorem isNameChar_of_hex {c : Char} (h : isHexDigit c = true) : isNameChar c = true := by
  have f : 'f' ≤ 'z' := by decide
  have F : 'F' ≤ 'Z' := by decide
  simp only [isNameChar, isLetter, isAsciiDigit, Bool.or_eq_true, Bool.and_eq_true,
    decide_eq_true_eq]
  unfold isHexDigit hexDigit? at h
  split at h
  · rename_i digit
    exact .inl (.inr digit)
  · split at h
    · rename_i lower
      exact .inl (.inl (.inl ⟨lower.1, Char.le_trans lower.2 f⟩))
    · split at h
      · rename_i upper
        exact .inl (.inl (.inr ⟨upper.1, Char.le_trans upper.2 F⟩))
      · cases h

namespace Cut

variable {rest : List Char}

/-- A class of characters that names go on with does not go on there. -/
theorem stops (h : Cut rest) {p : Char → Bool} (names : ∀ c, p c = true → isNameChar c = true) :
    ∀ c ∈ rest.head?, p c = false := by
  intro c hc
  rw [← Bool.not_eq_true]
  intro inside
  have name := (h c hc).1
  rw [names c inside] at name
  cases name

/-- A character that names go on with does not stand there. -/
theorem ne (h : Cut rest) {c d : Char} (hc : c ∈ rest.head?) (name : isNameChar d = true) :
    c ≠ d := by
  rintro rfl
  rw [(h c hc).1] at name
  cases name

end Cut

theorem Ended.cut {rest : List Char} (h : Ended rest) : Cut rest :=
  fun c hc => ⟨(h c hc).1, (h c hc).2.1⟩

namespace Numeral

/-! ## Runs with an end

-/

/-- A run of characters of a class is as long as it is, if the text behind goes on with none of
them. -/
theorem runLength?_ended {p : Char → Bool} {run rest : List Char} (ne : run ≠ [])
    (all : ∀ c ∈ run, p c = true) (stop : ∀ c ∈ rest.head?, p c = false) :
    runLength? p (run ++ rest) = some run.length :=
  runLength?_eq_some.2 ⟨runLength_ended all stop, fun zero => ne (List.length_eq_zero_iff.1 zero)⟩

variable {rest : List Char}

/-! ## Integers

The notations are tried one after the other, a floating-point number first. Digits start one as
well, so it has to be shown that they are none: there is no point behind them and no exponent. -/

/-- Digits without a point are found as a floating-point number just if an exponent follows. -/
theorem lengthIn?_float_exponent {digits : List Char} (ne : digits ≠ [])
    (all : ∀ c ∈ digits, isDecimalDigit c = true)
    (stop : ∀ c ∈ rest.head?, isDecimalDigit c = false ∧ c ≠ '.') :
    lengthIn? .float (digits ++ rest) = (exponentLength? rest).map (digits.length + ·) := by
  have run := runLength_ended all fun c hc => (stop c hc).1
  have point : pointLength? (digits ++ rest) = none := by
    unfold pointLength?
    simp only [run, List.drop_left]
    cases rest with
    | nil => rfl
    | cons c rest => simp [(stop c rfl).2]
  rw [lengthIn?, fractionLength?, point, scientificLength?,
    runLength?_ended ne all fun c hc => (stop c hc).1, Option.bind_some, List.drop_left]
  rfl

/-- Digits are no floating-point number if neither a point nor an exponent follows. -/
theorem lengthIn?_float_of_digits {digits : List Char} (ne : digits ≠ [])
    (all : ∀ c ∈ digits, isDecimalDigit c = true)
    (stop : ∀ c ∈ rest.head?, isDecimalDigit c = false ∧ c ≠ '.' ∧ c ≠ 'e' ∧ c ≠ 'E') :
    lengthIn? .float (digits ++ rest) = none := by
  have exponent : exponentLength? rest = none := by
    cases rest with
    | nil => rfl
    | cons c rest => simp [exponentLength?, (stop c rfl).2.2]
  rw [lengthIn?_float_exponent ne all fun c hc => ⟨(stop c hc).1, (stop c hc).2.1⟩, exponent,
    Option.map_none]

/-- Digits that end like a number are no floating-point number. -/
theorem lengthIn?_float_ended {digits : List Char} (ne : digits ≠ [])
    (all : ∀ c ∈ digits, isDecimalDigit c = true) (ended : Ended rest) :
    lengthIn? .float (digits ++ rest) = none :=
  lengthIn?_float_of_digits ne all fun c hc =>
    ⟨(ended c hc).2.1, (ended c hc).2.2, ended.cut.ne hc (by decide), ended.cut.ne hc (by decide)⟩

/-- Decimal digits of which the first is not zero are found as a decimal integer. -/
theorem scanSeparately_decimal {d : Char} {ds : List Char} (first : '1' ≤ d ∧ d ≤ '9')
    (digits : ∀ c ∈ ds, isAsciiDigit c = true) (ended : Ended rest) :
    scanSeparately (d :: ds ++ rest) = some (.decimal, ds.length + 1) := by
  have all : ∀ c ∈ d :: ds, isDecimalDigit c = true :=
    List.forall_mem_cons.2 ⟨isDecimalDigit_of_ascii (isAsciiDigit_of_range first),
      fun c hc => isDecimalDigit_of_ascii (digits c hc)⟩
  have nonzero : d ≠ '0' := by
    rintro rfl
    exact absurd first.1 (by decide)
  have float := lengthIn?_float_ended (List.cons_ne_nil d ds) all ended
  have hexadecimal : lengthIn? .hexadecimal (d :: ds ++ rest) = none := by
    rw [lengthIn?, List.cons_append]
    cases ds ++ rest <;> simp [hexLength?, nonzero]
  have octal : lengthIn? .octal (d :: ds ++ rest) = none := by
    simp [lengthIn?, octalLength?, nonzero]
  have decimal : lengthIn? .decimal (d :: ds ++ rest) = some (ds.length + 1) := by
    rw [lengthIn?, List.cons_append, decimalLength?, if_neg nonzero, if_pos first,
      runLength_ended digits (ended.cut.stops fun c => isNameChar_of_ascii)]
  simp only [scanSeparately, kinds, List.findSome?_cons, float, hexadecimal, octal, decimal,
    Option.map_none, Option.map_some]

/-- A zero alone is found as a decimal integer. -/
theorem scanSeparately_zero (ended : Ended rest) :
    scanSeparately ('0' :: rest) = some (.decimal, 1) := by
  have float : lengthIn? .float ('0' :: rest) = none :=
    @lengthIn?_float_ended rest ['0'] (by simp) (List.forall_mem_singleton.2 (by decide)) ended
  have hexadecimal : lengthIn? .hexadecimal ('0' :: rest) = none := by
    rw [lengthIn?]
    cases rest with
    | nil => rfl
    | cons c rest =>
      have lower : c ≠ 'x' := ended.cut.ne rfl (by decide)
      have upper : c ≠ 'X' := ended.cut.ne rfl (by decide)
      simp [hexLength?, lower, upper]
  have octal : lengthIn? .octal ('0' :: rest) = none := by
    have none : runLength isOctalDigit rest = 0 :=
      @runLength_ended _ [] rest (by simp)
        (ended.cut.stops fun c hc => isNameChar_of_ascii (isAsciiDigit_of_octal hc))
    simp [lengthIn?, octalLength?, runLength?, none]
  simp only [scanSeparately, kinds, List.findSome?_cons, float, hexadecimal, octal,
    Option.map_none]
  rfl

/-- Octal digits behind a zero are found as an octal integer. -/
theorem scanSeparately_octal {ds : List Char} (ne : ds ≠ [])
    (digits : ∀ c ∈ ds, isOctalDigit c = true) (ended : Ended rest) :
    scanSeparately ('0' :: ds ++ rest) = some (.octal, ds.length + 1) := by
  have all : ∀ c ∈ '0' :: ds, isDecimalDigit c = true :=
    List.forall_mem_cons.2 ⟨by decide,
      fun c hc => isDecimalDigit_of_ascii (isAsciiDigit_of_octal (digits c hc))⟩
  have float := lengthIn?_float_ended (List.cons_ne_nil '0' ds) all ended
  have hexadecimal : lengthIn? .hexadecimal ('0' :: ds ++ rest) = none := by
    obtain ⟨c, cs, rfl⟩ := List.exists_cons_of_ne_nil ne
    have digit := digits c List.mem_cons_self
    have lower : c ≠ 'x' := by
      rintro rfl
      cases digit
    have upper : c ≠ 'X' := by
      rintro rfl
      cases digit
    simp [lengthIn?, hexLength?, lower, upper]
  have octal : lengthIn? .octal ('0' :: ds ++ rest) = some (ds.length + 1) := by
    rw [lengthIn?, List.cons_append, octalLength?, if_pos rfl, runLength?_ended ne digits
      (ended.cut.stops fun c hc => isNameChar_of_ascii (isAsciiDigit_of_octal hc)), Option.map_some]
  simp only [scanSeparately, kinds, List.findSome?_cons, float, hexadecimal, octal,
    Option.map_none, Option.map_some]

/-- Hexadecimal digits behind their prefix are found as a hexadecimal integer. -/
theorem scanSeparately_hexadecimal {x : Char} {ds : List Char} (marked : x = 'x' ∨ x = 'X')
    (ne : ds ≠ []) (digits : ∀ c ∈ ds, isHexDigit c = true) (cut : Cut rest) :
    scanSeparately ('0' :: x :: ds ++ rest) = some (.hexadecimal, ds.length + 2) := by
  have float : lengthIn? .float ('0' :: x :: ds ++ rest) = none :=
    @lengthIn?_float_of_digits (x :: (ds ++ rest)) ['0'] (by simp)
      (List.forall_mem_singleton.2 (by decide))
      (by rcases marked with rfl | rfl <;> simp [isDecimalDigit_x])
  have hexadecimal : lengthIn? .hexadecimal ('0' :: x :: ds ++ rest) = some (ds.length + 2) := by
    rw [lengthIn?, List.cons_append, List.cons_append, hexLength?, if_pos ⟨rfl, marked⟩,
      runLength?_ended ne digits (cut.stops fun c => isNameChar_of_hex), Option.map_some]
  simp only [scanSeparately, kinds, List.findSome?_cons, float, hexadecimal, Option.map_none,
    Option.map_some]

end Numeral

/-! ## The digits of a number

`digitOf` is the digit that the renderer writes, letters as capitals. That it is one of its notation
is a matter of sixteen cases; that all digits of a number are is by induction on the number
(`digits_induction`). -/

open Numeral

/-- A digit in a base up to sixteen, letters as capitals. -/
def digitOf (k : Nat) : Char := (Nat.digitChar k).toUpper

/-- A digit has the value it was written for. -/
theorem hexDigit?_digitOf {k : Nat} (h : k < 16) : hexDigit? (digitOf k) = some k := by
  have each : ∀ k : Fin 16, hexDigit? (digitOf k) = some k.val := by decide
  exact each ⟨k, h⟩

/-- Below ten, a digit is decimal. -/
theorem isAsciiDigit_digitOf {k : Nat} (h : k < 10) : isAsciiDigit (digitOf k) = true := by
  have each : ∀ k : Fin 10, isAsciiDigit (digitOf k) = true := by decide
  exact each ⟨k, h⟩

/-- Below eight, a digit is octal. -/
theorem isOctalDigit_digitOf {k : Nat} (h : k < 8) : isOctalDigit (digitOf k) = true := by
  have each : ∀ k : Fin 8, isOctalDigit (digitOf k) = true := by decide
  exact each ⟨k, h⟩

/-- Of a number above zero, the digit is not zero. -/
theorem digitOf_range {k : Nat} (pos : 0 < k) (h : k < 10) :
    '1' ≤ digitOf k ∧ digitOf k ≤ '9' := by
  have each : ∀ k : Fin 10, 0 < k.val → '1' ≤ digitOf k ∧ digitOf k ≤ '9' := by decide
  exact each ⟨k, h⟩ pos

theorem ofDigits_append (b : Nat) (ds : List Nat) (d : Nat) :
    ofDigits b (ds ++ [d]) = ofDigits b ds * b + d := by
  rw [ofDigits, List.foldl_append]
  rfl

section Digits

variable {b : Nat} (base : 1 < b)

include base

theorem digitChars_eq (n : Nat) :
    digitChars b n = if n < b then [digitOf n] else digitChars b (n / b) ++ [digitOf (n % b)] := by
  unfold digitChars
  rw [Nat.toDigits_eq_if base]
  split
  · rfl
  · rw [List.map_append]
    rfl

/-- A property of the digits of a number follows along its quotients by the base. -/
theorem digits_induction {P : Nat → Prop} (small : ∀ n < b, P n)
    (large : ∀ n, b ≤ n → P (n / b) → P n) (n : Nat) : P n := by
  induction n using Nat.strongRecOn with
  | ind n ih =>
    by_cases less : n < b
    · exact small n less
    · exact large n (Nat.le_of_not_lt less)
        (ih _ (Nat.div_lt_self (by omega) base))

/-- The digits of a number are digits of the base. -/
theorem digitChars_each {p : Char → Bool} (each : ∀ k < b, p (digitOf k) = true) (n : Nat) :
    ∀ c ∈ digitChars b n, p c = true := by
  induction n using digits_induction base with
  | small n less =>
    rw [digitChars_eq base, if_pos less]
    simpa using each n less
  | large n le ih =>
    rw [digitChars_eq base, if_neg (by omega), List.forall_mem_append]
    exact ⟨ih, by simpa using each _ (Nat.mod_lt n (by omega))⟩

theorem digitChars_ne_nil (n : Nat) : digitChars b n ≠ [] := by
  rw [digitChars_eq base]
  split <;> simp

/-- The first digit of a positive number is not zero. -/
theorem digitChars_first {n : Nat} (pos : 0 < n) :
    ∃ k ds, 0 < k ∧ k < b ∧ digitChars b n = digitOf k :: ds := by
  induction n using digits_induction base with
  | small n less =>
    rw [digitChars_eq base, if_pos less]
    exact ⟨n, [], pos, less, rfl⟩
  | large n le ih =>
    obtain ⟨k, ds, first, less, eq⟩ := ih (Nat.div_pos le (by omega))
    rw [digitChars_eq base, if_neg (by omega), eq]
    exact ⟨k, ds ++ [digitOf (n % b)], first, less, rfl⟩

/-- The digits of a number have its value. -/
theorem ofDigits_digitChars (hex : b ≤ 16) (n : Nat) :
    ofDigits b ((digitChars b n).filterMap hexDigit?) = n := by
  induction n using digits_induction base with
  | small n less =>
    rw [digitChars_eq base, if_pos less]
    simp [hexDigit?_digitOf (Nat.lt_of_lt_of_le less hex), ofDigits]
  | large n le ih =>
    have last : n % b < 16 := Nat.lt_of_lt_of_le (Nat.mod_lt n (by omega)) hex
    rw [digitChars_eq base, if_neg (by omega), List.filterMap_append, List.filterMap_cons,
      hexDigit?_digitOf last, List.filterMap_nil, ofDigits_append, ih]
    exact Nat.div_add_mod' n b

end Digits

/-! ## Integers -/

/-- The numeral of a number is found as one of its notation. -/
theorem scanSeparately_numeralOf (radix : Radix) (n : Nat) {rest : List Char} (ended : Ended rest) :
    scanSeparately ((numeralOf radix n).2 ++ rest) =
      some ((numeralOf radix n).1, (numeralOf radix n).2.length) := by
  have decimals := digitChars_each (b := 10) (by decide) fun k => isAsciiDigit_digitOf
  cases radix with
  | hexadecimal =>
    have digits : ∀ c ∈ digitChars 16 n, isHexDigit c = true :=
      digitChars_each (by decide) (fun k h => by rw [isHexDigit, hexDigit?_digitOf h]; rfl) n
    exact scanSeparately_hexadecimal (.inl rfl) (digitChars_ne_nil (by decide) n) digits ended.cut
  | octal =>
    unfold numeralOf
    dsimp only
    split
    · exact scanSeparately_zero ended
    · exact scanSeparately_octal (digitChars_ne_nil (by decide) n)
        (digitChars_each (by decide) (fun k => isOctalDigit_digitOf) n) ended
  | decimal =>
    rcases Nat.eq_zero_or_pos n with rfl | pos
    · exact scanSeparately_zero ended
    · obtain ⟨k, ds, first, less, eq⟩ := digitChars_first (b := 10) (by decide) pos
      have digits := decimals n
      rw [eq, List.forall_mem_cons] at digits
      show scanSeparately (digitChars 10 n ++ rest) = some (.decimal, (digitChars 10 n).length)
      rw [eq]
      exact scanSeparately_decimal (digitOf_range first less) digits.2 ended

theorem length_digitChars_le {n : Nat} (h : n ≤ maxInt) :
    (digitChars 10 n).length ≤ Violation.maxDigits := by
  have few : (Nat.toDigits 10 n).length ≤ 19 :=
    (Nat.length_toDigits_le_iff (by decide) (by decide)).2
      (Nat.lt_of_le_of_lt h (by decide))
  rw [digitChars, List.length_map]
  exact Nat.le_trans few (by decide)

theorem Build.intLiteral_eq_ok {r : Range} {radix : Radix} {text : List Char} {n : Nat}
    (short : radix = .decimal → text.length ≤ Violation.maxDigits)
    (value : intValue radix text = n) (small : n ≤ maxInt) : intLiteral r radix text = .ok n := by
  unfold intLiteral
  rw [if_neg fun long => absurd (short long.1) (by omega)]
  simp only [value]
  rw [if_neg (by omega)]

/-- The numeral of a number has its value. -/
theorem Build.numberValue_numeralOf (r : Range) (radix : Radix) {n : Nat} (small : n ≤ maxInt) :
    ∃ radix', numberValue ⟨r, (numeralOf radix n).1, (numeralOf radix n).2⟩ =
      .ok (.int n radix') := by
  cases radix with
  | hexadecimal =>
    have value : intValue .hexadecimal ('0' :: 'x' :: digitChars 16 n) = n :=
      ofDigits_digitChars (by decide) (by decide) n
    have literal : intLiteral r .hexadecimal ('0' :: 'x' :: digitChars 16 n) = .ok n :=
      intLiteral_eq_ok (by simp) value small
    exact ⟨.hexadecimal, by simp only [numberValue, numeralOf, literal]; rfl⟩
  | octal =>
    unfold numeralOf
    dsimp only
    split
    · rename_i zero
      subst zero
      exact ⟨.decimal, rfl⟩
    · have value : intValue .octal ('0' :: digitChars 8 n) = n :=
        ofDigits_digitChars (by decide) (by decide) n
      have literal : intLiteral r .octal ('0' :: digitChars 8 n) = .ok n :=
        intLiteral_eq_ok (by simp) value small
      exact ⟨.octal, by simp only [numberValue, literal]; rfl⟩
  | decimal =>
    have value : intValue .decimal (digitChars 10 n) = n :=
      ofDigits_digitChars (by decide) (by decide) n
    have literal : intLiteral r .decimal (digitChars 10 n) = .ok n :=
      intLiteral_eq_ok (fun _ => length_digitChars_le small) value small
    exact ⟨.decimal, by simp only [numberValue, numeralOf, literal]; rfl⟩

/-! ## Floating-point numbers

The text of a finite number has digits in front of its point or behind it, and possibly an exponent;
`IsFloat` states this as the scanner reads it. It is found in front of everything that is `Cut`,
even a point, for it has one already or ends with its exponent. -/

namespace Numeral

variable {rest : List Char}

/-- The text of an exponent. -/
def IsExponent (cs : List Char) : Prop :=
  ∃ sign ds, cs = 'e' :: sign :: ds ∧ (sign = '+' ∨ sign = '-') ∧ ds ≠ [] ∧
    ∀ c ∈ ds, isAsciiDigit c = true

theorem exponentLength?_of_exponent {cs : List Char} (h : IsExponent cs) (cut : Cut rest) :
    exponentLength? (cs ++ rest) = some cs.length := by
  obtain ⟨sign, ds, rfl, signed, ne, digits⟩ := h
  have run := runLength?_ended ne (fun c hc => isDecimalDigit_of_ascii (digits c hc))
    fun c hc => (cut c hc).2
  simp [exponentLength?, signed, run]

theorem exponentLength?_cut (cut : Cut rest) : exponentLength? rest = none := by
  cases rest with
  | nil => rfl
  | cons c rest =>
    have lower : c ≠ 'e' := cut.ne rfl (by decide)
    have upper : c ≠ 'E' := cut.ne rfl (by decide)
    simp [exponentLength?, lower, upper]

/-- The text of a floating-point number: digits with a point and perhaps an exponent, or digits with
an exponent. -/
inductive IsFloat : List Char → Prop
  | point {whole fraction : List Char} : (∀ c ∈ whole, isAsciiDigit c = true) →
      (∀ c ∈ fraction, isAsciiDigit c = true) → fraction ≠ [] → IsFloat (whole ++ '.' :: fraction)
  | both {whole fraction exponent : List Char} : (∀ c ∈ whole, isAsciiDigit c = true) →
      (∀ c ∈ fraction, isAsciiDigit c = true) → fraction ≠ [] → IsExponent exponent →
      IsFloat (whole ++ '.' :: (fraction ++ exponent))
  | scientific {digits exponent : List Char} : (∀ c ∈ digits, isAsciiDigit c = true) →
      digits ≠ [] → IsExponent exponent → IsFloat (digits ++ exponent)

theorem pointLength?_digits {whole fraction : List Char}
    (hwhole : ∀ c ∈ whole, isAsciiDigit c = true)
    (hfraction : ∀ c ∈ fraction, isAsciiDigit c = true) (ne : fraction ≠ [])
    (stop : ∀ c ∈ rest.head?, isDecimalDigit c = false) :
    pointLength? (whole ++ '.' :: (fraction ++ rest)) =
      some (whole.length + 1 + fraction.length) := by
  have before : runLength isDecimalDigit (whole ++ '.' :: (fraction ++ rest)) = whole.length :=
    runLength_ended (fun c hc => isDecimalDigit_of_ascii (hwhole c hc)) (by simp; decide)
  have behind : runLength isDecimalDigit (fraction ++ rest) = fraction.length :=
    runLength_ended (fun c hc => isDecimalDigit_of_ascii (hfraction c hc)) stop
  have some_ : fraction.length ≠ 0 := fun zero => ne (List.length_eq_zero_iff.1 zero)
  unfold pointLength?
  simp only [before, List.drop_left, behind]
  rw [if_neg fun both => some_ both.2]

/-- Digits with a point are found as a floating-point number, with the exponent that follows. -/
theorem lengthIn?_float_point {whole fraction : List Char}
    (hwhole : ∀ c ∈ whole, isAsciiDigit c = true)
    (hfraction : ∀ c ∈ fraction, isAsciiDigit c = true) (ne : fraction ≠ [])
    (stop : ∀ c ∈ rest.head?, isDecimalDigit c = false) :
    lengthIn? .float (whole ++ '.' :: (fraction ++ rest)) =
      some (whole.length + 1 + fraction.length + (exponentLength? rest).getD 0) := by
  have point := pointLength?_digits hwhole hfraction ne stop
  have behind : (whole ++ '.' :: (fraction ++ rest)).drop
      (whole.length + 1 + fraction.length) = rest := by
    rw [Nat.add_assoc, List.drop_length_add_append, Nat.add_comm, List.drop_succ_cons,
      List.drop_left]
  rw [lengthIn?, fractionLength?, point, Option.map_some, behind]
  rfl

theorem IsExponent.head {cs : List Char} (h : IsExponent cs) :
    ∀ c ∈ (cs ++ rest).head?, isDecimalDigit c = false ∧ c ≠ '.' := by
  obtain ⟨sign, ds, rfl, -⟩ := h
  rintro c hc
  cases hc
  decide

/-- The text of a floating-point number is found as one. -/
theorem scanSeparately_float {cs : List Char} (h : IsFloat cs) (cut : Cut rest) :
    scanSeparately (cs ++ rest) = some (.float, cs.length) := by
  have found : lengthIn? .float (cs ++ rest) = some cs.length := by
    cases h with
    | @point whole fraction hwhole hfraction ne =>
      rw [List.append_assoc, List.cons_append,
        lengthIn?_float_point hwhole hfraction ne fun c hc => (cut c hc).2,
        exponentLength?_cut cut, List.length_append, List.length_cons]
      exact congrArg some (by simp only [Option.getD_none]; omega)
    | @both whole fraction exponent hwhole hfraction ne hexponent =>
      rw [List.append_assoc, List.cons_append, List.append_assoc,
        lengthIn?_float_point hwhole hfraction ne fun c hc => (hexponent.head c hc).1,
        exponentLength?_of_exponent hexponent cut, List.length_append, List.length_cons,
        List.length_append]
      exact congrArg some (by simp only [Option.getD_some]; omega)
    | @scientific digits exponent hdigits ne hexponent =>
      have decimal : ∀ c ∈ digits, isDecimalDigit c = true :=
        fun c hc => isDecimalDigit_of_ascii (hdigits c hc)
      rw [List.append_assoc, lengthIn?_float_exponent ne decimal hexponent.head,
        exponentLength?_of_exponent hexponent cut, Option.map_some, List.length_append]
  simp only [scanSeparately, kinds, List.findSome?_cons, found, Option.map_some]

end Numeral

namespace Decimal

theorem isAsciiDigit_of_toDigits {n : Nat} {c : Char} (h : c ∈ Nat.toDigits 10 n) :
    isAsciiDigit c = true := by
  have digit := Nat.isDigit_of_mem_toDigits (by decide) (by decide) h
  simpa [Char.isDigit, isAsciiDigit, Char.le_def] using digit

theorem isExponent_exponentText (p : Int) : IsExponent (exponentText p) := by
  refine ⟨if p < 0 then '-' else '+', _, rfl, by split <;> simp, ?_, ?_⟩
  · split
    · simp
    · exact Nat.toDigits_ne_nil
  · have digits : ∀ c ∈ Nat.toDigits 10 p.natAbs, isAsciiDigit c = true :=
      fun c => isAsciiDigit_of_toDigits
    split
    · exact List.forall_mem_cons.2 ⟨by decide, digits⟩
    · exact digits

theorem digits_stripZeros (n : Nat) :
    ∀ c ∈ (stripZeros (Nat.toDigits 10 n)).1, isAsciiDigit c = true := by
  intro c hc
  have among : c ∈ (Nat.toDigits 10 n).reverse :=
    List.mem_of_mem_drop (List.mem_reverse.1 hc)
  exact isAsciiDigit_of_toDigits (List.mem_reverse.1 among)

theorem digits_zeros (n : Nat) : ∀ c ∈ List.replicate n '0', isAsciiDigit c = true := by
  intro c hc
  rw [List.eq_of_mem_replicate hc]
  decide

/-- Every decimal is laid out as a floating-point number. -/
theorem isFloat_layout (d : Decimal) : IsFloat d.layout := by
  have digits := digits_stripZeros d.digits
  unfold layout
  generalize stripZeros (Nat.toDigits 10 d.digits) = stripped at digits
  obtain ⟨ds, zeros⟩ := stripped
  dsimp only at digits ⊢
  split
  · split
    · refine .point ?_ (digits_zeros 1) (by simp)
      exact List.forall_mem_append.2 ⟨digits, digits_zeros _⟩
    · split
      · rename_i negative positional
        refine .point (fun c hc => digits c (List.mem_of_mem_take hc))
          (fun c hc => digits c (List.mem_of_mem_drop hc)) ?_
        rw [Ne, List.drop_eq_nil_iff]
        omega
      · rename_i negative fraction
        refine @IsFloat.point ['0'] _ (digits_zeros 1) ?_ ?_
        · exact List.forall_mem_append.2 ⟨digits_zeros _, digits⟩
        · intro empty
          obtain ⟨none, rfl⟩ := List.append_eq_nil_iff.1 empty
          have zero := congrArg List.length none
          simp only [List.length_replicate, List.length_nil] at zero
          simp only [List.length_nil] at negative fraction
          omega
  · split
    · exact @IsFloat.point ['0'] ['0'] (digits_zeros 1) (digits_zeros 1) (by simp)
    · rename_i d _
      exact @IsFloat.scientific [d] _ digits (by simp) (isExponent_exponentText _)
    · rename_i d more ne _
      rw [List.forall_mem_cons] at digits
      refine @IsFloat.both [d] more _ (by simpa using digits.1) digits.2 ?_
        (isExponent_exponentText _)
      rintro rfl
      exact ne rfl

end Decimal

/-- The text of a finite number is that of a floating-point number. -/
theorem Binary64.isFloat_magnitudeText {x : Binary64} (finite : x.isInfinite = false) :
    IsFloat x.magnitudeText := by
  unfold magnitudeText
  rw [if_neg (by simp [finite])]
  split
  · exact @IsFloat.point ['0'] ['0'] (Decimal.digits_zeros 1) (Decimal.digits_zeros 1) (by simp)
  · exact Decimal.isFloat_layout _

end Wdl
