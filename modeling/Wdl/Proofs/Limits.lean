import Wdl.Proofs.Recognition
import Wdl.Proofs.Traces

/-!
# Wdl.Proofs.Limits -- only long numerals are beyond what the language defines

Whatever is wrong with a text is a rule of the language that it breaks, with one exception: decimal
integers are read up to a number of digits only (`Violation.maxDigits`), and that limit is met in
texts alone that have more digits in a row. Longer integers are rejected.

* `ParseError.Defined` is an error that the language defines, and `ShortOfDigits` a text that does
  not meet the limit. `parseDocument_defined` and `parseExpr_defined` say that the second makes sure
  of the first.
* `parseExpr_tooManyDigits` is the other side: an integer with more digits is refused for just that,
  with the range of the whole numeral, whichever front end reads it.
-/

namespace Wdl

variable {cs : List Char}

/-! ## What parsing reports -/

/-- The added line feed is no digit. -/
theorem Parser.hasDigits_terminated {n : Nat} (h : HasDigits (terminated cs) n) :
    HasDigits cs n := by
  obtain ⟨digits, inside, length, each⟩ := h
  refine ⟨digits, ?_, length, each⟩
  unfold terminated at inside
  split at inside
  · exact inside
  · rcases List.infix_concat_iff.1 inside with suffix | inside
    · rcases List.eq_nil_or_concat' digits with rfl | ⟨front, d, rfl⟩
      · exact List.nil_infix
      · obtain ⟨before, eq⟩ := suffix
        have last := congrArg List.getLast? eq
        simp only [List.getLast?_append, List.getLast?_singleton, Option.some_or,
          Option.some.injEq] at last
        have digit := each d (by simp)
        rw [last] at digit
        exact absurd digit (by decide)
    · exact inside

open Wdl.Parser

/-- The error is that of a rule of the language: no limit on what is read. -/
def ParseError.Defined : ParseError → Prop
  | .syntaxError _ _ => True
  | .violated _ v => ∀ n, v.violation ≠ .tooManyDigits n

/-- A text has no more digits in a row than are read. -/
def ShortOfDigits (cs : List Char) : Prop := ∀ n, HasDigits cs n → n ≤ Violation.maxDigits

/-- A violation that is found in a text which is short of digits is not that there are too many. -/
theorem Violated.Traced.defined {n : Nat} {fe : FrontEnd} {v : Violated}
    (h : v.Traced (terminated cs) n) (short : ShortOfDigits cs) :
    (ParseError.violated fe v).Defined := by
  intro m tooMany
  obtain ⟨long, digits⟩ := h.founded m tooMany
  exact absurd (short m (hasDigits_terminated digits)) (by omega)

variable {rules : Rules} {source : SourceText}

/-- If a text is short of digits, then what is wrong with it as a document is that it breaks a rule
of the language. -/
theorem parseDocument_defined (short : ShortOfDigits source.chars) {e : ParseError}
    (failed : (parseDocument rules source).result = .error e) : e.Defined := by
  rcases parseDocument_traced failed with ⟨r, -, -, rfl⟩ | ⟨_, v, -, traced, rfl⟩
  · trivial
  · exact traced.defined short

/-- If a text is short of digits, then what is wrong with it as an expression is that it breaks a
rule of the language. -/
theorem parseExpr_defined (short : ShortOfDigits source.chars) {e : ParseError}
    (failed : (parseExpr rules source).result = .error e) : e.Defined := by
  rcases parseExpr_traced failed with ⟨r, -, -, rfl⟩ | ⟨_, v, -, traced, rfl⟩
  · trivial
  · exact traced.defined short

/-! ## The limit -/

/-- Decimal digits at the end of a line, of which the first is not zero, are legible as a number. -/
theorem digits_legible (fe : FrontEnd) {d : Char} {ds : List Char} (first : '1' ≤ d ∧ d ≤ '9')
    (digits : ∀ c ∈ ds, isAsciiDigit c = true) :
    Legible fe Expect.expr [⟨[], .number .decimal, d :: ds, Expect.afterNumber⟩] ['\n'] := by
  have ended : Ended ['\n'] := by
    intro c hc
    cases hc
    decide
  have scanned := Numeral.scanSeparately_decimal first digits ended
  exact ⟨reads_number (by decide) (.nil false) (by decide) scanned, trivial⟩

/-- A decimal integer that is longer than what is read is rejected for that alone. -/
theorem parseExpr_tooManyDigits (rules : Rules) {source : SourceText} {d : Char} {ds : List Char}
    (text : source.chars = d :: ds) (first : '1' ≤ d ∧ d ≤ '9')
    (digits : ∀ c ∈ ds, isAsciiDigit c = true) (long : Violation.maxDigits < ds.length + 1) :
    (parseExpr rules source).result =
      .error (.violated rules.frontEnd ⟨.tooManyDigits (ds.length + 1), ⟨0, ds.length + 1⟩⟩) := by
  have last : (d :: ds).getLast? ≠ some '\n' := by
    intro h
    have digit : ∀ c ∈ d :: ds, isAsciiDigit c = true :=
      List.forall_mem_cons.2 ⟨Numeral.isAsciiDigit_of_range first, digits⟩
    exact absurd (digit '\n' (List.mem_of_getLast? h)) (by decide)
  have terminated : terminated source.chars =
      spelled [⟨[], .number .decimal, d :: ds, Expect.afterNumber⟩] ++ ['\n'] := by
    rw [Parser.terminated, text, if_neg last]
    simp
  have script : Script .expr .plain (.number (numeral .decimal ⟨.number .decimal, d :: ds, 0⟩))
      (stepsFrom 0 [⟨[], .number .decimal, d :: ds, Expect.afterNumber⟩]) :=
    .single (.unsigned (.bare (.number .decimal _ rfl)))
  -- the text is one lexeme, so what it is parsed as follows from what the lexeme spells
  have parsed := (digits_legible rules.frontEnd first digits).parse terminated rfl script
  have built : Build.expr rules (.number (numeral .decimal ⟨.number .decimal, d :: ds, 0⟩)) =
      .error ⟨.tooManyDigits (ds.length + 1), ⟨0, ds.length + 1⟩⟩ := by
    have tooMany : Build.intLiteral ⟨0, ds.length + 1⟩ .decimal (d :: ds) =
        .error ⟨.tooManyDigits (ds.length + 1), ⟨0, ds.length + 1⟩⟩ :=
      if_pos ⟨rfl, long⟩
    have range : Token.range ⟨.number .decimal, d :: ds, 0⟩ = ⟨0, ds.length + 1⟩ := by
      rw [Token.range, Token.stop, Nat.zero_add]
      rfl
    rw [Build.expr, Build.numberValue]
    simp only [numeral, range, tooMany]
    rfl
  simp only [parseExpr, Parsed.ofSurface, parsed, built]
  rfl

end Wdl
