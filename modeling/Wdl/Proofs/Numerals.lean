import Wdl.Token.Scan

/-!
# Wdl.Proofs.Numerals -- the two ways to recognise a number agree

One front end tries a notation after the other; the other finds the extent of a number first and
tells its notation from the text. At every place of every text both find the same number in the same
notation, or none.

* `scanSeparately` and `scanTogether` are the two ways. `lengthIn?` is the extent of a number in one
  notation, and `classify` tells the notation from a text.
* For each notation there is a lemma about the shape of its numbers, such as `hexLength?_shape`.
  From the shapes `classify_take` follows: a number of some notation shows this notation, if it is
  the first one in which there is a number.
* `scanTogether_eq` is the result, and `FrontEnd.next_eq` draws the conclusion that the front ends
  find the same tokens.
-/

namespace Wdl.Numeral

/-! ## Runs of a class

A run of digits is as long as it can be, and what is found of it is the beginning of the text. -/

/-- What is counted is the longest beginning of a text that is all of the class. -/
theorem take_runLength (p : Char → Bool) (cs : List Char) :
    cs.take (runLength p cs) = cs.takeWhile p := by
  exact (List.prefix_iff_eq_take.1 (List.takeWhile_prefix p)).symm

/-- A text starts with its run of a class, and what is behind does not go on with the class. -/
theorem runLength_split (p : Char → Bool) (cs : List Char) :
    ∃ run, cs = run ++ cs.drop (runLength p cs) ∧ run.length = runLength p cs ∧
      ∀ c ∈ run, p c = true := by
  refine ⟨cs.takeWhile p, ?_, rfl, List.all_eq_true.1 List.all_takeWhile⟩
  rw [← take_runLength, List.take_append_drop]

/-- A run is found just if it is not empty. -/
theorem runLength?_eq_some {p : Char → Bool} {cs : List Char} {n : Nat} :
    runLength? p cs = some n ↔ runLength p cs = n ∧ n ≠ 0 := by
  unfold runLength?
  split
  · rename_i zero
    constructor
    · intro h; cases h
    · rintro ⟨rfl, h⟩; exact absurd zero h
  · rename_i pos
    constructor
    · intro h; cases h; exact ⟨rfl, pos⟩
    · rintro ⟨rfl, -⟩; rfl

/-- A run of a class that ends where the class does. -/
theorem runLength_ended {p : Char → Bool} {run rest : List Char} (all : ∀ c ∈ run, p c = true)
    (stop : ∀ c ∈ rest.head?, p c = false) : runLength p (run ++ rest) = run.length := by
  rw [runLength, List.takeWhile_append_of_pos all, List.length_append]
  cases rest with
  | nil => rfl
  | cons c rest => simp [stop c rfl]

/-- A run that is found is not empty, and what is behind it goes on from there. -/
theorem runLength?_split {p : Char → Bool} {cs : List Char} {n : Nat}
    (h : runLength? p cs = some n) :
    ∃ run rest, cs = run ++ rest ∧ run.length = n ∧ run ≠ [] ∧ ∀ c ∈ run, p c = true := by
  obtain ⟨rfl, pos⟩ := runLength?_eq_some.1 h
  obtain ⟨run, split, len, all⟩ := runLength_split p cs
  refine ⟨run, _, split, len, ?_, all⟩
  rintro rfl
  exact pos len.symm

/-! ## The shapes of the notations

Each notation is told by its first characters: a prefix, a zero, or another digit. Floating-point
numbers are told by the character behind their first digits. -/

/-- A number with a point is digits and a point, then more. -/
theorem fractionLength?_shape {cs : List Char} {n : Nat} (h : fractionLength? cs = some n) :
    ∃ digits rest, cs = digits ++ '.' :: rest ∧ (∀ d ∈ digits, isDecimalDigit d = true) ∧
      digits.length < n := by
  obtain ⟨m, hm, rfl⟩ := Option.map_eq_some_iff.1 h
  obtain ⟨run, split, len, digits⟩ := runLength_split isDecimalDigit cs
  unfold pointLength? at hm
  simp only at hm
  split at hm
  · rename_i rest point
    split at hm
    · cases hm
    · cases hm
      rw [point] at split
      exact ⟨run, rest, split, digits, by omega⟩
  · cases hm

/-- The first character of an exponent is its letter. -/
theorem exponentLength?_shape {cs : List Char} {n : Nat} (h : exponentLength? cs = some n) :
    ∃ e rest, cs = e :: rest ∧ (e = 'e' ∨ e = 'E') ∧ 0 < n := by
  unfold exponentLength? at h
  split at h
  · cases h
  · rename_i e rest
    split at h
    · rename_i letter
      refine ⟨e, rest, rfl, letter, ?_⟩
      split at h
      · cases h
      · split at h <;> (obtain ⟨m, -, rfl⟩ := Option.map_eq_some_iff.1 h; omega)
    · cases h

/-- A number with an exponent and no point is digits and the exponent's letter, then more. -/
theorem scientificLength?_shape {cs : List Char} {n : Nat} (h : scientificLength? cs = some n) :
    ∃ digits e rest, cs = digits ++ e :: rest ∧ (e = 'e' ∨ e = 'E') ∧
      (∀ d ∈ digits, isDecimalDigit d = true) ∧ digits.length < n := by
  obtain ⟨m, hm, h⟩ := Option.bind_eq_some_iff.1 h
  obtain ⟨k, hk, rfl⟩ := Option.map_eq_some_iff.1 h
  obtain ⟨rfl, -⟩ := runLength?_eq_some.1 hm
  obtain ⟨run, split, len, digits⟩ := runLength_split isDecimalDigit cs
  obtain ⟨e, rest, letter_at, letter, pos⟩ := exponentLength?_shape hk
  rw [letter_at] at split
  exact ⟨run, e, rest, split, letter, digits, by omega⟩

/-- A hexadecimal number is its prefix and hexadecimal digits. -/
theorem hexLength?_shape {cs : List Char} {n : Nat} (h : hexLength? cs = some n) :
    ∃ x run rest, cs = '0' :: x :: run ++ rest ∧ (x = 'x' ∨ x = 'X') ∧ n = run.length + 2 ∧
      run ≠ [] ∧ ∀ c ∈ run, isHexDigit c = true := by
  unfold hexLength? at h
  split at h
  · split at h
    · rename_i z x rest shape
      obtain ⟨rfl, hx⟩ := shape
      obtain ⟨m, hm, rfl⟩ := Option.map_eq_some_iff.1 h
      obtain ⟨run, behind, rfl, len, ne, digits⟩ := runLength?_split hm
      exact ⟨x, run, behind, rfl, hx, by omega, ne, digits⟩
    · cases h
  · cases h

/-- An octal number is a zero and octal digits. -/
theorem octalLength?_shape {cs : List Char} {n : Nat} (h : octalLength? cs = some n) :
    ∃ run rest, cs = '0' :: run ++ rest ∧ n = run.length + 1 ∧ run ≠ [] ∧
      ∀ c ∈ run, isOctalDigit c = true := by
  unfold octalLength? at h
  split at h
  · split at h
    · rename_i z rest zero
      subst zero
      obtain ⟨m, hm, rfl⟩ := Option.map_eq_some_iff.1 h
      obtain ⟨run, behind, rfl, len, ne, digits⟩ := runLength?_split hm
      exact ⟨run, behind, rfl, by omega, ne, digits⟩
    · cases h
  · cases h

/-- A decimal number is a zero, or ASCII digits of which the first is not zero. -/
theorem decimalLength?_shape {cs : List Char} {n : Nat} (h : decimalLength? cs = some n) :
    ∃ run rest, cs = run ++ rest ∧ n = run.length ∧
      (run = ['0'] ∨ ∃ d ds, run = d :: ds ∧ ('1' ≤ d ∧ d ≤ '9') ∧
        ∀ c ∈ ds, isAsciiDigit c = true) := by
  unfold decimalLength? at h
  split at h
  · rename_i d rest
    split at h
    · rename_i zero
      cases h; subst zero
      exact ⟨['0'], rest, rfl, rfl, .inl rfl⟩
    · split at h
      · rename_i range
        cases h
        obtain ⟨run, split, len, digits⟩ := runLength_split isAsciiDigit rest
        refine ⟨d :: run, rest.drop (runLength isAsciiDigit rest), ?_, ?_,
          .inr ⟨d, run, rfl, range, digits⟩⟩
        · rw [List.cons_append, ← split]
        · simp [len]
      · cases h
  · cases h

/-! ## The notation that a text shows

The text of a number is looked at for a hexadecimal prefix first, then for the signs of a
floating-point number anywhere, and then for a zero at its start. A hexadecimal number may well hold
the letter of an exponent, and the digits of a floating-point number may start with a zero, so this
order matters. -/

theorem isDecimalDigit_x : isDecimalDigit 'x' = false ∧ isDecimalDigit 'X' = false := by decide

/-- Digits with a point or an exponent's letter behind them show a floating-point number. -/
theorem classify_float {digits : List Char} {c : Char} (more : List Char)
    (hdigits : ∀ d ∈ digits, isDecimalDigit d = true) (hc : c = '.' ∨ c = 'e' ∨ c = 'E') :
    classify (digits ++ c :: more) = .float := by
  have no_prefix : ∀ x, x = 'x' ∨ x = 'X' → (digits ++ c :: more).take 2 ≠ ['0', x] := by
    intro x hx eq
    match digits, hdigits with
    | [], _ => simp at eq; rcases hc with rfl | rfl | rfl <;> simp at eq
    | [_], _ =>
      obtain ⟨-, rfl⟩ : _ ∧ c = x := by simpa using eq
      rcases hc with rfl | rfl | rfl <;> simp at hx
    | _ :: d :: _, hdigits =>
      obtain ⟨-, rfl⟩ : _ ∧ d = x := by simpa using eq
      have digit := hdigits d (by simp)
      rcases hx with rfl | rfl
      · rw [isDecimalDigit_x.1] at digit; cases digit
      · rw [isDecimalDigit_x.2] at digit; cases digit
  unfold classify
  rw [if_neg (by
    rintro (eq | eq)
    · exact no_prefix _ (.inl rfl) eq
    · exact no_prefix _ (.inr rfl) eq), if_pos]
  rcases hc with rfl | rfl | rfl <;> simp

/-- A hexadecimal prefix shows a hexadecimal number. -/
theorem classify_hexadecimal {x : Char} (more : List Char) (hx : x = 'x' ∨ x = 'X') :
    classify ('0' :: x :: more) = .hexadecimal := by
  rcases hx with rfl | rfl <;> simp [classify]

/-- A text of ASCII digits shows an integer: octal if it starts with a zero and goes on. -/
theorem classify_digits {text : List Char} (h : ∀ c ∈ text, isAsciiDigit c = true) :
    classify text = if 1 < text.length ∧ text.head? = some '0' then .octal else .decimal := by
  have plain : ∀ c ∈ text, c ≠ 'x' ∧ c ≠ 'X' ∧ c ≠ '.' ∧ c ≠ 'e' ∧ c ≠ 'E' := by
    intro c hc
    have digit := h c hc
    refine ⟨?_, ?_, ?_, ?_, ?_⟩ <;> (rintro rfl; revert digit; decide)
  have no_prefix : ∀ x, x = 'x' ∨ x = 'X' → text.take 2 ≠ ['0', x] := by
    intro x hx eq
    have mem : x ∈ text := List.mem_of_mem_take (i := 2) (by rw [eq]; simp)
    rcases hx with rfl | rfl
    · exact (plain _ mem).1 rfl
    · exact (plain _ mem).2.1 rfl
  unfold classify
  rw [if_neg (by
    rintro (eq | eq)
    · exact no_prefix _ (.inl rfl) eq
    · exact no_prefix _ (.inr rfl) eq), if_neg]
  simp only [List.any_eq_true, Bool.or_eq_true, decide_eq_true_eq, not_exists, not_and]
  intro c hc
  obtain ⟨-, -, h1, h2, h3⟩ := plain c hc
  simp [h1, h2, h3]

theorem isAsciiDigit_of_octal {c : Char} (h : isOctalDigit c = true) : isAsciiDigit c = true := by
  simp only [isOctalDigit, isAsciiDigit, Bool.and_eq_true, decide_eq_true_eq] at *
  exact ⟨h.1, Char.le_trans h.2 (by decide)⟩

theorem isAsciiDigit_of_range {c : Char} (h : '1' ≤ c ∧ c ≤ '9') : isAsciiDigit c = true := by
  simp only [isAsciiDigit, Bool.and_eq_true, decide_eq_true_eq]
  exact ⟨Char.le_trans (by decide) h.1, h.2⟩

theorem isDecimalDigit_of_ascii {c : Char} (h : isAsciiDigit c = true) :
    isDecimalDigit c = true := by
  simp only [isAsciiDigit, Bool.and_eq_true, decide_eq_true_eq] at h
  have low : 0x30 ≤ c.toNat := h.1
  have high : c.toNat ≤ 0x39 := h.2
  have found : (decide (0x30 ≤ c.toNat) && decide (c.toNat < 0x30 + 10)) = true := by
    simp only [Bool.and_eq_true, decide_eq_true_eq]
    omega
  rw [isDecimalDigit, decimalDigit?, Option.isSome_map, List.find?_isSome]
  exact ⟨0x30, List.mem_cons_self, found⟩

/-- The text of a number in the first notation that is found shows that notation. -/
theorem classify_take {kind : NumeralKind} {cs : List Char} {n : Nat}
    (h : lengthIn? kind cs = some n) : classify (cs.take n) = kind := by
  cases kind with
  | float =>
    rcases Option.or_eq_some_iff.1 h with h | ⟨-, h⟩
    · obtain ⟨digits, rest, rfl, hdigits, lt⟩ := fractionLength?_shape h
      obtain ⟨m, rfl⟩ : ∃ m, n = digits.length + (m + 1) := ⟨n - digits.length - 1, by omega⟩
      rw [List.take_length_add_append]
      exact classify_float _ hdigits (.inl rfl)
    · obtain ⟨digits, e, rest, rfl, letter, hdigits, lt⟩ := scientificLength?_shape h
      obtain ⟨m, rfl⟩ : ∃ m, n = digits.length + (m + 1) := ⟨n - digits.length - 1, by omega⟩
      rw [List.take_length_add_append]
      exact classify_float _ hdigits (.inr letter)
  | hexadecimal =>
    obtain ⟨x, run, rest, rfl, hx, rfl, -⟩ := hexLength?_shape h
    exact classify_hexadecimal _ hx
  | octal =>
    obtain ⟨run, rest, rfl, rfl, nonempty, digits⟩ := octalLength?_shape h
    have text : ('0' :: run ++ rest).take (run.length + 1) = '0' :: run := by simp
    have long : 0 < run.length := List.length_pos_iff.2 nonempty
    rw [text, classify_digits (List.forall_mem_cons.2
      ⟨by decide, fun c hc => isAsciiDigit_of_octal (digits c hc)⟩), if_pos]
    exact ⟨by simpa using long, rfl⟩
  | decimal =>
    obtain ⟨run, rest, rfl, rfl, shape⟩ := decimalLength?_shape h
    rw [List.take_left]
    rcases shape with rfl | ⟨d, ds, rfl, range, digits⟩
    · decide
    · rw [classify_digits (List.forall_mem_cons.2 ⟨isAsciiDigit_of_range range, digits⟩), if_neg]
      rintro ⟨-, head⟩
      obtain rfl : d = '0' := by simpa using head
      exact absurd range.1 (by decide)

/-! ## Agreement -/

/-- The extent of a number of any notation is that in the first notation in which there is one. -/
theorem lengthOfAny?_eq (cs : List Char) :
    lengthOfAny? cs = kinds.findSome? fun kind => lengthIn? kind cs := by
  simp only [lengthOfAny?, forms, kinds, List.findSome?, lengthIn?]
  cases fractionLength? cs <;> rfl

/-- Both ways find the same number in the same notation. -/
theorem scanTogether_eq (cs : List Char) : scanTogether cs = scanSeparately cs := by
  have pair : ∀ ks : List NumeralKind,
      ((ks.findSome? fun kind => lengthIn? kind cs).map fun n => (classify (cs.take n), n)) =
        ks.findSome? fun kind => (lengthIn? kind cs).map (kind, ·) := by
    intro ks
    induction ks with
    | nil => rfl
    | cons kind ks ih =>
      simp only [List.findSome?_cons]
      cases found : lengthIn? kind cs with
      | none => exact ih
      | some n => simp [classify_take found]
  rw [scanTogether, lengthOfAny?_eq, scanSeparately]
  exact pair kinds

end Wdl.Numeral

namespace Wdl

/-- The front ends recognise the same numbers. -/
theorem FrontEnd.scanNumber_eq (fe : FrontEnd) : fe.scanNumber = Numeral.scanSeparately := by
  cases fe with
  | tree => rfl
  | flat => exact funext Numeral.scanTogether_eq

end Wdl
