import Wdl.Proofs.Recognition

/-!
# Wdl.Proofs.Lines -- what a text starts with is found on its first line

A scanner that is steady (`Steady`) may still look beyond the token that it finds. But none of them
looks beyond the end of a line, with one exception: a text in single quotes goes on until a mark
ends it. So where none of these is found, what is found does not depend on what is on the next line.

* `OneLine f` says it of one function, and there is one lemma for each way to combine such functions
  (`OneLine.orElse`, `OneLine.map`, `OneLine.ite`, `oneLine_run`, `oneLine_behind`) and one for each
  scanner.
* `other?` is what `Scan.plain?` does apart from numbers, openings and texts in single quotes. That
  it is `OneLine` (`oneLine_other`) is shared by the two cases of the result.
* `plain?_line` is the result: a token found on a line is found whatever follows the line, provided
  that a text in single quotes ends on it.
-/

namespace Wdl.Scan

open Numeral

/-! ## Scanners that read one line

A text is given as what is on the line, `p`, and what is on the lines below, `r`. The equation
compares the next line with an empty one, so it says at once that `r` does not matter and that the
end of the text does not either. -/

/-- What is found does not depend on what is behind a line feed. -/
def OneLine {β : Type} (f : List Char → β) : Prop :=
  ∀ p r : List Char, f (p ++ '\n' :: r) = f (p ++ ['\n'])

variable {β γ : Type} {f g : List Char → Option β}

theorem OneLine.orElse (hf : OneLine f) (hg : OneLine g) : OneLine fun cs => (f cs).or (g cs) := by
  intro p r
  simp only [hf p r, hg p r]

theorem oneLine_findSome {α : Type} {h : α → List Char → Option β} {as : List α}
    (each : ∀ a, OneLine (h a)) : OneLine fun cs => as.findSome? fun a => h a cs := by
  intro p r
  simp only [each _ p r]

theorem OneLine.map (hf : OneLine f) (g : β → γ) : OneLine fun cs => (f cs).map g := by
  intro p r
  simp only [hf p r]

theorem OneLine.ite {b : Bool} (hf : OneLine f) : OneLine fun cs => if b then f cs else none := by
  intro p r
  simp only [hf p r]

theorem oneLine_runLength {p : Char → Bool} (h : p '\n' = false) : OneLine (runLength p) := by
  intro xs ys
  rw [runLength_line h, runLength_line h]

theorem oneLine_run {p : Char → Bool} (h : p '\n' = false) : OneLine (runLength? p) := by
  intro xs ys
  rw [runLength?, runLength?, oneLine_runLength h]

theorem oneLine_behind {q : Char → Bool} {f : List Char → Option Nat} (h : q '\n' = false)
    (hf : OneLine f) : OneLine (behind q f) := by
  intro p r
  cases p with
  | nil => simp [behind, h]
  | cons c p => simp only [List.cons_append, behind, hf p r]

/-- What is found in a line lies in front of its line feed. -/
theorem Steady.inside {size : β → Nat} (hf : Steady size f) {p : List Char} {x : β}
    (found : f (p ++ ['\n']) = some x) : size x ≤ p.length := by
  obtain ⟨-, le⟩ := hf.fits found
  rw [List.length_append, List.length_singleton] at le
  refine Nat.le_of_lt_succ (Nat.lt_of_le_of_ne le fun whole => ?_)
  have last := hf.ends found '\n' (by rw [whole, List.take_of_length_le (by simp)]; simp)
  cases last

/-! ## Numbers -/

theorem oneLine_exponent : OneLine exponentLength? := by
  have digits : OneLine (runLength? isDecimalDigit) := oneLine_run (by decide)
  rw [exponentLength?_eq]
  exact oneLine_behind (by decide) ((oneLine_behind (by decide) digits).orElse digits)

theorem oneLine_point : OneLine pointLength? := by
  intro p r
  have run : ∀ p r, runLength isDecimalDigit (p ++ '\n' :: r) = runLength isDecimalDigit p :=
    runLength_line (by decide)
  unfold pointLength?
  simp only [run, List.drop_append_of_le_length (runLength_le isDecimalDigit p)]
  cases p.drop (runLength isDecimalDigit p) with
  | nil => rfl
  | cons c p =>
    by_cases point : c = '.'
    · subst point
      simp only [List.cons_append, run]
    · simp [point]

/-- A numeral with a fraction looks for digits on both sides of its point, all of them on one line.
-/
theorem oneLine_fraction : OneLine fractionLength? := by
  intro p r
  rw [fractionLength?, fractionLength?, oneLine_point p r]
  cases found : pointLength? (p ++ ['\n']) with
  | none => rfl
  | some n =>
    have le : n ≤ p.length := steady_point.inside found
    simp only [Option.map_some, List.drop_append_of_le_length le, oneLine_exponent (p.drop n) r]

theorem oneLine_scientific : OneLine scientificLength? := by
  intro p r
  have digits : OneLine (runLength? isDecimalDigit) := oneLine_run (by decide)
  rw [scientificLength?, scientificLength?, digits p r]
  cases found : runLength? isDecimalDigit (p ++ ['\n']) with
  | none => rfl
  | some n =>
    have le : n ≤ p.length := (steady_run inline_decimalDigit).inside found
    simp only [Option.bind_some, List.drop_append_of_le_length le, oneLine_exponent (p.drop n) r]

theorem oneLine_hex : OneLine hexLength? := by
  rw [hexLength?_eq]
  exact oneLine_behind (by decide) (oneLine_behind (by decide) (oneLine_run (by decide)))

theorem oneLine_octal : OneLine octalLength? := by
  rw [octalLength?_eq]
  exact oneLine_behind (by decide) (oneLine_run (by decide))

theorem oneLine_decimal : OneLine decimalLength? := by
  rw [decimalLength?_eq]
  have digits : OneLine fun cs => some (runLength isAsciiDigit cs) :=
    fun p r => congrArg some (oneLine_runLength (by decide) p r)
  exact (oneLine_behind (by decide) fun _ _ => rfl).orElse (oneLine_behind (by decide) digits)

theorem oneLine_lengthIn (kind : NumeralKind) : OneLine (lengthIn? kind) := by
  cases kind with
  | float => exact oneLine_fraction.orElse oneLine_scientific
  | hexadecimal => exact oneLine_hex
  | octal => exact oneLine_octal
  | decimal => exact oneLine_decimal

theorem oneLine_number (fe : FrontEnd) : OneLine fe.scanNumber := by
  rw [fe.scanNumber_eq]
  exact oneLine_findSome fun kind => (oneLine_lengthIn kind).map (kind, ·)

/-! ## Placeholders, string literals and words -/

/-- An opening of a placeholder is two characters, of which neither is a line feed. -/
theorem oneLine_opening : OneLine openingLength? := by
  rw [openingLength?_eq]
  refine oneLine_behind (by decide) ?_
  intro p r
  cases p <;> rfl

/-- A text in double quotes is given up at a line feed, escaped or not. -/
theorem oneLine_double (escaped : Bool) : OneLine (doubleRest? escaped) := by
  intro p r
  induction p generalizing escaped with
  | nil => simp [doubleRest?]
  | cons c p ih => simp only [List.cons_append, doubleRest?, ih]

theorem oneLine_quoted_double : OneLine (quotedLength? .double) := by
  rw [quotedLength?_double]
  exact oneLine_behind (by decide) (oneLine_double false)

theorem oneLine_name : OneLine nameLength? := by
  have eq : nameLength? = behind isLetter fun rest => some (runLength isNameChar rest) := by
    funext cs
    cases cs with
    | nil => rfl
    | cons c rest => simp [nameLength?, behind]
  rw [eq]
  refine oneLine_behind (by decide) fun p r => ?_
  rw [oneLine_runLength (by decide)]

/-- A fixed spelling without line feeds. -/
theorem oneLine_spelling {w : List Char} (unbroken : '\n' ∉ w) : OneLine (spellingLength? w) := by
  intro p r
  have inside : ∀ r, w.isPrefixOf (p ++ '\n' :: r) = w.isPrefixOf p := by
    intro r
    induction w generalizing p with
    | nil => simp
    | cons a w ih =>
      rw [List.mem_cons, not_or] at unbroken
      cases p with
      | nil =>
        have other : (a == '\n') = false := beq_false_of_ne (Ne.symm unbroken.1)
        simp [List.isPrefixOf, other]
      | cons b p => rw [List.cons_append, List.isPrefixOf, List.isPrefixOf, ih unbroken.2]
  rw [spellingLength?, spellingLength?, inside, inside]

/-- A word is looked up only once its last character is known, and that is before the line feed. -/
theorem oneLine_word (A : Expect) : OneLine (word? A) := by
  unfold word?
  split
  · -- a name is told from a keyword by its own characters
    intro p r
    dsimp only
    rw [oneLine_name p r]
    cases found : nameLength? (p ++ ['\n']) with
    | none => rfl
    | some n =>
      have le : n ≤ p.length := steady_name.inside found
      simp only [Option.map_some, List.take_append_of_le_length le]
  · refine oneLine_findSome fun k => ?_
    have unbroken : '\n' ∉ k.spelling := by cases k <;> decide
    exact ((oneLine_spelling unbroken).map (Terminal.keyword k, ·)).ite

theorem oneLine_symbol (A : Expect) : OneLine (symbol? A) := by
  refine oneLine_findSome fun s => ?_
  have unbroken : '\n' ∉ s.spelling := by cases s <;> decide
  exact ((oneLine_spelling unbroken).map (Terminal.symbol s, ·)).ite

theorem OneLine.class {f : List Char → Option Nat} (hf : OneLine f) (A : Expect) (t : Terminal) :
    OneLine (class? A t f) := (hf.map (t, ·)).ite

/-! ## Tokens -/

/-- A token that is no number, no text in single quotes, and opens no placeholder. -/
def other? (A : Expect) (cs : List Char) : Option (Terminal × Nat) :=
  (word? A cs).or ((class? A (.quoted .double) (quotedLength? .double) cs).or
    ((class? A .versionWord (runLength? isVersionChar) cs).or
    ((class? A (.mark .double) (spellingLength? [Quote.double.char]) cs).or
    ((class? A (.mark .single) (spellingLength? [Quote.single.char]) cs).or (symbol? A cs)))))

theorem plain?_eq (fe : FrontEnd) (A : Expect) (cs : List Char) :
    plain? fe A cs = (number? fe A cs).or ((class? A .opening openingLength? cs).or
      ((class? A (.quoted .single) (quotedLength? .single) cs).or (other? A cs))) := by
  simp only [plain?, other?, Option.orElse_eq_orElse, Option.orElse_eq_or]

theorem oneLine_other (A : Expect) : OneLine (other? A) := by
  have version : OneLine (runLength? isVersionChar) := oneLine_run (by decide)
  have mark : ∀ q : Quote, OneLine (spellingLength? [q.char]) := fun q =>
    oneLine_spelling (by cases q <;> decide)
  exact (oneLine_word A).orElse ((oneLine_quoted_double.class A _).orElse
    ((version.class A _).orElse (((mark .double).class A _).orElse
      (((mark .single).class A _).orElse (oneLine_symbol A)))))

/-- With a mark for single quotes, only a text in them starts. -/
theorem other?_quote {A : Expect} (mark : A.contains (.mark .single) = false)
    (version : A.contains .versionWord = false) (cs : List Char) :
    other? A ('\'' :: cs) = none := by
  have word : word? A ('\'' :: cs) = none := word?_of_other (by decide) cs
  have quoted : class? A (.quoted .double) (quotedLength? .double) ('\'' :: cs) = none :=
    class?_of_none (quotedLength?_of_other (by decide) cs)
  have double : class? A (.mark .double) (spellingLength? [Quote.double.char]) ('\'' :: cs) =
      none :=
    class?_of_none (by simp [spellingLength?, Quote.char])
  have symbol : symbol? A ('\'' :: cs) = none := symbol?_of_other (by decide) cs
  simp only [other?, word, quoted, double, symbol, class?_unlooked mark, class?_unlooked version]
  rfl

/-- A token is found whatever is on the next line, if a text in single quotes ends on this one. -/
theorem plain?_line {fe : FrontEnd} {A : Expect} (alone : Parser.lone A = true) {p r : List Char}
    {found : Terminal × Nat} (h : plain? fe A (p ++ ['\n']) = some found)
    (closed : found.1 = .quoted .single → quotedLength? .single (p ++ '\n' :: r) = some found.2) :
    plain? fe A (p ++ '\n' :: r) = some found := by
  have number : OneLine (number? fe A) :=
    ((oneLine_number fe).map (fun found => (Terminal.number found.1, found.2))).ite
  have opening : OneLine (class? A .opening openingLength?) := oneLine_opening.class A _
  rw [plain?_eq] at h ⊢
  rw [number p r, opening p r, oneLine_other A p r]
  simp only [Option.or_eq_some_iff] at h ⊢
  rcases h with h | ⟨none, h | ⟨none', h | ⟨none'', h⟩⟩⟩
  · exact .inl h
  · exact .inr ⟨none, .inl h⟩
  · obtain ⟨looked, kind, -⟩ := class?_eq_some h
    refine .inr ⟨none, .inr ⟨none', .inl ?_⟩⟩
    rw [class?, if_pos looked, closed kind, Option.map_some, ← kind]
  · refine .inr ⟨none, .inr ⟨none', .inr ⟨?_, h⟩⟩⟩
    -- what is found shows that the text does not start with the mark
    cases looked : A.contains (.quoted .single) with
    | false => exact class?_unlooked looked _ _
    | true =>
      have other : ∀ c ∈ (p ++ ['\n']).head?, c ≠ '\'' := by
        rintro c head rfl
        obtain ⟨cs, eq⟩ := List.head?_eq_some_iff.1 head
        simp only [Parser.lone, looked, Bool.not_true, Bool.false_or, Bool.and_eq_true,
          Bool.not_eq_true'] at alone
        rw [eq, other?_quote alone.1 alone.2] at h
        cases h
      refine class?_of_none ?_
      cases p with
      | nil => exact quotedLength?_of_other (by decide) r
      | cons c p => exact quotedLength?_of_other (other c rfl) _

end Wdl.Scan
