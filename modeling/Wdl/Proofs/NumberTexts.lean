import Wdl.Proofs.Frames
import Wdl.Proofs.Signs

/-!
# Wdl.Proofs.NumberTexts -- numbers with at most one sign

A number is written as a numeral, perhaps with a sign in front. How far the numeral reaches, and in
which notation it is, does not depend on the text behind it, unless a character stands there that
numbers are written with. As an expression of its own, such a text is the number with its sign
folded in, or it is refused for what is wrong with its digits. As a meta value it comes to the same.

* `Severed rest` is the text behind a number, and `scanSeparately_severed` says that it does not
  matter.
* `NumberText` is the text of a number: a sign, layout behind it, and a numeral that both front ends
  find as a whole. Its `value` is the number with its sign or what is wrong with it.
* `NumberText.parseExpr_eq` is what it is as an expression, and `NumberText.metaNumber_eq` what it
  is built to as a meta value. `SameNumber` compares the two.
-/

namespace Wdl

open Scan
open Wdl.Parser (Script Step numeral)

/-! ## Where the text goes on

The notations are measured by functions put together from runs of classes. `Unmoved rest f` says of
such a function that the text behind does not matter, and goes through putting together. -/

/-- Nothing that a number is written with stands where the text goes on. -/
def Severed (rest : List Char) : Prop :=
  Ended rest ∧ ∀ c ∈ rest.head?, c ≠ '+' ∧ c ≠ '-'

namespace Numeral

/-- What is found does not depend on how the text goes on. -/
def Unmoved (rest : List Char) (f : List Char → Option Nat) : Prop := ∀ cs, f (cs ++ rest) = f cs

variable {rest : List Char} {p : Char → Bool} {f g : List Char → Option Nat}

/-- A run of a class ends where the text does not go on with it. -/
theorem runLength_severed (stop : ∀ c ∈ rest.head?, p c = false) (cs : List Char) :
    runLength p (cs ++ rest) = runLength p cs := by
  rcases Nat.lt_or_ge (runLength p cs) cs.length with lt | ge
  · exact runLength_append_of_lt lt
  · have whole := Nat.le_antisymm (runLength_le p cs) ge
    have none : runLength p rest = 0 := @runLength_ended p [] rest (by simp) stop
    rw [runLength_append_of_eq whole, none, whole, Nat.add_zero]

/-- Runs of a class are unmoved. -/
theorem unmoved_run (stop : ∀ c ∈ rest.head?, p c = false) : Unmoved rest (runLength? p) := by
  intro cs
  rw [runLength?, runLength?, runLength_severed stop]

/-- What is measured behind a character of a class is unmoved. -/
theorem unmoved_behind (stop : ∀ c ∈ rest.head?, p c = false) (hf : Unmoved rest f) :
    Unmoved rest (behind p f) := by
  intro cs
  cases cs with
  | cons c cs => simp only [List.cons_append, behind, hf cs]
  | nil =>
    cases rest with
    | nil => rfl
    | cons c rest => simp [behind, stop c rfl]

/-- Of two unmoved measures, the first that finds something is unmoved. -/
theorem Unmoved.orElse (hf : Unmoved rest f) (hg : Unmoved rest g) :
    Unmoved rest fun cs => (f cs).or (g cs) := by
  intro cs
  show (f (cs ++ rest)).or (g (cs ++ rest)) = _
  rw [hf cs, hg cs]

variable (severed : Severed rest)

include severed

/-- No digit stands behind a number. -/
theorem severed_decimalDigit : ∀ c ∈ rest.head?, isDecimalDigit c = false :=
  fun c hc => (severed.1 c hc).2.1

/-- The extent of an exponent is unmoved. -/
theorem unmoved_exponent : Unmoved rest exponentLength? := by
  have digits := unmoved_run (severed_decimalDigit severed)
  have sign : ∀ c ∈ rest.head?, (decide (c = '+') || decide (c = '-')) = false := by
    intro c hc
    simpa using severed.2 c hc
  rw [exponentLength?_eq]
  refine unmoved_behind (fun c hc => ?_) ((unmoved_behind sign digits).orElse digits)
  simpa using ⟨severed.1.cut.ne hc rfl, severed.1.cut.ne hc rfl⟩

/-- The extent of a fraction is unmoved. -/
theorem unmoved_point : Unmoved rest pointLength? := by
  intro cs
  have digits := severed_decimalDigit severed
  unfold pointLength?
  simp only [runLength_severed digits,
    List.drop_append_of_le_length (runLength_le isDecimalDigit cs)]
  cases found : cs.drop (runLength isDecimalDigit cs) with
  | cons c more =>
    by_cases point : c = '.'
    · subst point
      simp only [List.cons_append, runLength_severed digits]
    · simp [point]
  | nil =>
    cases rest with
    | nil => rfl
    | cons c more => simp [(severed.1 c rfl).2.2]

/-- Numbers of each notation are found as they are found alone. -/
theorem unmoved_lengthIn (kind : NumeralKind) : Unmoved rest (lengthIn? kind) := by
  have digits := unmoved_run (severed_decimalDigit severed)
  have exponent := unmoved_exponent severed
  have point := unmoved_point severed
  have other : ∀ d, isNameChar d = true → ∀ c ∈ rest.head?, (c == d) = false :=
    fun d name c hc => beq_false_of_ne (severed.1.cut.ne hc name)
  cases kind with
  | float =>
    -- the exponent is looked for in what the digits leave, still in front of `rest`
    refine Unmoved.orElse (fun cs => ?_) fun cs => ?_
    · unfold fractionLength?
      rw [point cs]
      refine Option.map_congr fun n found => ?_
      have size : n ≤ cs.length := (steady_point.fits found).2
      rw [List.drop_append_of_le_length size, exponent]
    · unfold scientificLength?
      rw [digits cs]
      refine Option.bind_congr fun n found => ?_
      have size : n ≤ cs.length := ((steady_run inline_decimalDigit).fits found).2
      rw [List.drop_append_of_le_length size, exponent]
  | hexadecimal =>
    show Unmoved rest hexLength?
    rw [hexLength?_eq]
    refine unmoved_behind (other '0' rfl) (unmoved_behind (fun c hc => ?_)
      (unmoved_run (severed.1.cut.stops fun c => isNameChar_of_hex)))
    simpa using ⟨severed.1.cut.ne hc rfl, severed.1.cut.ne hc rfl⟩
  | octal =>
    show Unmoved rest octalLength?
    rw [octalLength?_eq]
    exact unmoved_behind (other '0' rfl) (unmoved_run (severed.1.cut.stops fun c h =>
      isNameChar_of_ascii (isAsciiDigit_of_octal h)))
  | decimal =>
    show Unmoved rest decimalLength?
    rw [decimalLength?_eq]
    refine (unmoved_behind (other '0' rfl) fun _ => rfl).orElse
      (unmoved_behind (severed.1.cut.stops fun c h => ?_) fun cs => ?_)
    · simp only [Bool.and_eq_true, decide_eq_true_eq] at h
      exact isNameChar_of_ascii (isAsciiDigit_of_range h)
    · rw [runLength_severed (severed.1.cut.stops fun c => isNameChar_of_ascii)]

/-- A number is found as it is found alone. -/
theorem scanSeparately_severed (cs : List Char) :
    scanSeparately (cs ++ rest) = scanSeparately cs := by
  unfold scanSeparately
  refine congrArg (List.findSome? · kinds) (funext fun kind => ?_)
  rw [unmoved_lengthIn severed kind cs]

end Numeral

/-- A number ends at the end of a line. -/
theorem severed_line (more : List Char) : Severed ('\n' :: more) := by
  constructor <;>
  · rintro c ⟨⟩
    decide

/-! ## Texts of numbers -/

/-- The symbol of a sign. -/
def Surface.Sign.symbol : Surface.Sign → Symbol
  | .minus => .minus
  | .plus => .plus

/-- The operator of a sign. -/
def Surface.Sign.op : Surface.Sign → UnaryOp
  | .minus => .neg
  | .plus => .pos

/-- The text of a number: a numeral that either front end finds as a whole, perhaps behind a sign,
with layout between them. -/
structure NumberText where
  sign : Option (Surface.Sign × List Char)
  kind : NumeralKind
  digits : List Char
  layout : ∀ s ∈ sign, Gap false s.2 false
  found : ∀ fe : FrontEnd, fe.scanNumber digits = some (kind, digits.length)

/-- The meta value of a number. -/
def Build.NumberValue.metaValue (r : Range) : Build.NumberValue → Meta
  | .int value radix => .int r value radix
  | .float value => .float r value

namespace NumberText

/-- The characters of the sign and the layout behind it. -/
def front (w : NumberText) : List Char :=
  match w.sign with
  | none => []
  | some (s, gap) => s.symbol.spelling ++ gap

/-- The characters of a number. -/
def chars (w : NumberText) : List Char := w.front ++ w.digits

/-- A number behind its sign. -/
def signed (w : NumberText) (value : Build.NumberValue) : Build.NumberValue :=
  if w.sign.map Prod.fst = some .minus then value.neg else value

/-- The value of a number, or what is wrong with it. -/
def value (w : NumberText) : Except Violation Build.NumberValue :=
  match Build.numberValue ⟨⟨0, 0⟩, w.kind, w.digits⟩ with
  | .ok value => .ok (w.signed value)
  | .error e => .error e.violation

/-- The lexemes of a number, where `after` is looked for behind its sign. -/
def lexemes (w : NumberText) (gap : List Char) (after : Expect) : List Lexeme :=
  match w.sign with
  | none => [⟨gap, .number w.kind, w.digits, Expect.afterNumber⟩]
  | some (s, inner) =>
    [.symbol gap s.symbol after, ⟨inner, .number w.kind, w.digits, Expect.afterNumber⟩]

/-- The lexemes of a number spell it. -/
theorem spelled_lexemes (w : NumberText) (gap : List Char) (after : Expect) :
    spelled (w.lexemes gap after) = gap ++ w.chars := by
  unfold lexemes chars front
  split
  · simp
  · simp [Lexeme.symbol]

variable {fe : FrontEnd} {rules : Rules} {A after : Expect} {gap : List Char} {ls : List Lexeme}

/-- The numeral of a number is found in front of what does not go on with it. -/
theorem scan (w : NumberText) (severed : Severed rest) :
    Numeral.scanSeparately (w.digits ++ rest) = some (w.kind, w.digits.length) := by
  rw [Numeral.scanSeparately_severed severed, ← FrontEnd.scanNumber_eq .tree]
  exact w.found .tree

/-- A number is legible where signs and numbers are looked for. -/
theorem legible (w : NumberText) (quiet : ordinary A = true) (number : .number .decimal ∈ A)
    (sign : ∀ s : Surface.Sign, .symbol s.symbol ∈ A ∧ unrivalled A s.symbol = true)
    (behind : ordinary after = true ∧ .number .decimal ∈ after) (layout : Gap false gap false)
    (severed : Severed (spelled ls ++ rest)) (legible : Legible fe Expect.afterNumber ls rest) :
    Legible fe A (w.lexemes gap after ++ ls) rest := by
  have found := w.scan severed
  unfold lexemes
  split
  · exact ⟨reads_number quiet layout number found, legible⟩
  · rename_i s inner signed
    obtain ⟨mem, alone⟩ := sign s
    refine ⟨reads_symbol quiet layout mem (clear_of_unrivalled alone) ?_ ?_,
      reads_number behind.1 (w.layout _ signed) behind.2 found, legible⟩
    · cases s <;> decide
    · intro dot
      cases s <;> cases dot

/-! ## Values -/

/-- The value of a number does not depend on where it is. -/
theorem numberValue_at (r r' : Range) (kind : NumeralKind) (digits : List Char) :
    Build.numberValue ⟨r, kind, digits⟩ =
      (Build.numberValue ⟨r', kind, digits⟩).mapError fun e => ⟨e.violation, r⟩ := by
  have literal : ∀ radix, Build.intLiteral r radix digits =
      (Build.intLiteral r' radix digits).mapError fun e => ⟨e.violation, r⟩ := by
    intro radix
    unfold Build.intLiteral
    split
    · rfl
    · dsimp only
      split <;> rfl
  cases kind with
  | float => rfl
  | _ =>
    simp only [Build.numberValue, literal]
    cases Build.intLiteral r' _ digits <;> rfl

/-- The numeral of a number, wherever it is, has its value but for the sign. -/
theorem numberValue_eq (w : NumberText) (r : Range) {α : Type} (f : Build.NumberValue → α) :
    (do return f (w.signed (← Build.numberValue ⟨r, w.kind, w.digits⟩)) : Checked α) =
      match w.value with
      | .ok v => .ok (f v)
      | .error v => .error ⟨v, r⟩ := by
  rw [numberValue_at r ⟨0, 0⟩, value]
  cases Build.numberValue ⟨⟨0, 0⟩, w.kind, w.digits⟩ <;> rfl

/-- The meta value of a number. -/
theorem metaNumber_eq (w : NumberText) (r r' : Range) :
    Build.metaNumber r (w.sign.map Prod.fst) ⟨r', w.kind, w.digits⟩ =
      match w.value with
      | .ok v => .ok (v.metaValue r)
      | .error v => .error ⟨v, r'⟩ := w.numberValue_eq r' (Build.NumberValue.metaValue r)

/-- A sign in front of a number becomes part of it. -/
theorem applySign_expr (s : Surface.Sign) (r r' : Range) (v : Build.NumberValue) :
    Build.applySign r s.op (v.expr r') =
      (if some s = some .minus then v.neg else v).expr r := by
  cases s <;> cases v <;> rfl

/-- The tokens of a number write an expression that is built to its value. -/
theorem built (w : NumberText) (rules : Rules) :
    ∃ σ, Script .expr .plain σ (stepsFrom 0 (w.lexemes [] Expect.expr)) ∧
      Build.expr rules σ = match w.value with
        | .ok v => .ok (v.expr ⟨0, w.chars.length⟩)
        | .error v => .error ⟨v, ⟨w.front.length, w.chars.length⟩⟩ := by
  have value := w.numberValue_eq ⟨w.front.length, w.chars.length⟩
    (Build.NumberValue.expr ⟨0, w.chars.length⟩)
  let t : Token := ⟨.number w.kind, w.digits, w.front.length⟩
  have number : Script .accessed .plain (.number (numeral w.kind t)) [⟨t, Expect.afterNumber⟩] :=
    .bare (.number w.kind t rfl)
  have place : t.range = ⟨w.front.length, w.chars.length⟩ := by
    rw [chars, List.length_append]
    rfl
  -- with a sign, the surface form is an operator on the number, and folding takes it back in
  cases sign : w.sign with
  | none =>
    have front : w.front = [] := by rw [NumberText.front, sign]
    have steps : stepsFrom 0 (w.lexemes [] Expect.expr) = [⟨t, Expect.afterNumber⟩] := by
      rw [lexemes, sign]
      simp only [t, front]
      rfl
    refine ⟨_, by rw [steps]; exact .single (.unsigned number), ?_⟩
    rw [← value, Build.expr, numeral, place]
    simp only [signed, sign, front]
    rfl
  | some s =>
    obtain ⟨s, gap⟩ := s
    let x : Parser.Sign := ⟨s.op, ⟨.symbol s.symbol, s.symbol.spelling, 0⟩⟩
    have front : w.front = s.symbol.spelling ++ gap := by rw [NumberText.front, sign]
    have op : Parser.unaryOp? x.token.kind = some x.op := by cases s <;> rfl
    have steps : stepsFrom 0 (w.lexemes [] Expect.expr) =
        [x].map Parser.Sign.step ++ [⟨t, Expect.afterNumber⟩] := by
      rw [lexemes, sign]
      simp only [t, front, stepsFrom, Lexeme.step, Lexeme.symbol, Lexeme.text, List.length_append,
        List.nil_append, Nat.zero_add]
      rfl
    have script : Script .expr .plain
        (.signed ([x].map Parser.Sign.sign) (.number (numeral w.kind t)))
        (stepsFrom 0 (w.lexemes [] Expect.expr)) := by
      rw [steps]
      exact .single (.signed [x] (List.cons_ne_nil _ _) (by simpa using op) number)
    refine ⟨_, script, ?_⟩
    rw [← value, Build.expr, Build.expr, numeral, place]
    cases Build.numberValue ⟨⟨w.front.length, w.chars.length⟩, w.kind, w.digits⟩ with
    | error e => rfl
    | ok v =>
      refine congrArg Except.ok ?_
      rw [Parser.applySigns_eq]
      exact (applySign_expr s _ _ v).trans (by simp only [signed, sign]; rfl)

/-- A number on its own is read as an expression, its value, unless the value is refused. -/
theorem parseExpr_eq (w : NumberText) (rules : Rules) {source : SourceText}
    (text : source.chars = w.chars) :
    (parseExpr rules source).result = match w.value with
      | .ok v => .ok (v.expr ⟨0, w.chars.length⟩)
      | .error v =>
        .error (.violated rules.frontEnd ⟨v, ⟨w.front.length, w.chars.length⟩⟩) := by
  obtain ⟨σ, script, built⟩ := w.built rules
  have legible : Legible rules.frontEnd Expect.expr (w.lexemes [] Expect.expr ++ []) ['\n'] :=
    w.legible (by decide) (by decide) (fun s => by cases s <;> decide) (by decide) (.nil false)
      (severed_line []) trivial
  rw [List.append_nil] at legible
  have parsed := legible.parse_spelled script
  rw [spelled_lexemes, List.nil_append, ← text] at parsed
  rw [parseExpr_of_surface parsed, built]
  cases w.value <;> rfl

/-- What is wrong with a number, if anything. -/
def refusal (w : NumberText) : Option Violation :=
  match w.value with
  | .ok _ => none
  | .error v => some v

variable {w : NumberText} {v : Violation}

/-- Nothing is wrong with a number that has a value. -/
theorem refusal_eq_none : w.refusal = none ↔ ∃ v, w.value = .ok v := by
  unfold refusal
  cases w.value <;> simp

/-- What is wrong with a number is why it has no value. -/
theorem refusal_eq_some : w.refusal = some v ↔ w.value = .error v := by
  unfold refusal
  cases w.value <;> simp

/-- On its own, a number is read as an expression. -/
def Accepted (rules : Rules) (w : NumberText) : Prop :=
  ∀ source : SourceText, source.chars = w.chars → ∃ e, (parseExpr rules source).result = .ok e

/-- On its own, a number is refused as an expression, for a reason. -/
def Refused (rules : Rules) (w : NumberText) (v : Violation) : Prop :=
  ∀ source : SourceText, source.chars = w.chars →
    ∃ r, (parseExpr rules source).result = .error (.violated rules.frontEnd ⟨v, r⟩)

/-- A number is read as an expression just if nothing is wrong with it. -/
theorem accepted_iff (w : NumberText) : w.Accepted rules ↔ w.refusal = none := by
  have alone : (SourceText.ofString (String.ofList w.chars) "" "").chars = w.chars := by
    rw [SourceText.chars_ofString, String.toList_ofList]
  constructor
  · intro accepted
    obtain ⟨e, read⟩ := accepted _ alone
    rw [w.parseExpr_eq rules alone] at read
    cases value : w.value with
    | ok v => exact refusal_eq_none.2 ⟨v, value⟩
    | error v =>
      rw [value] at read
      cases read
  · intro fine source text
    obtain ⟨v, value⟩ := refusal_eq_none.1 fine
    rw [w.parseExpr_eq rules text, value]
    exact ⟨_, rfl⟩

/-- A number is refused as an expression for what is wrong with it. -/
theorem refused_of_refusal (h : w.refusal = some v) : w.Refused rules v := by
  intro source text
  rw [w.parseExpr_eq rules text, refusal_eq_some.1 h]
  exact ⟨_, rfl⟩

end NumberText

/-! ## The same number -/

/-- A meta value and an expression are the same number, and span equally many characters. -/
inductive SameNumber : Meta → Expr → Prop
  | int {r r' : Range} (value : Int) (radix : Radix) {n : Nat} : r.stop = r.start + n →
      r'.stop = r'.start + n → SameNumber (.int r value radix) (.int r' value radix)
  | float {r r' : Range} (value : Binary64) {n : Nat} : r.stop = r.start + n →
      r'.stop = r'.start + n → SameNumber (.float r value) (.float r' value)

/-- A value is the same number as a meta value and as an expression. -/
theorem Build.NumberValue.same (v : NumberValue) {r r' : Range} {n : Nat}
    (h : r.stop = r.start + n) (h' : r'.stop = r'.start + n) :
    SameNumber (v.metaValue r) (v.expr r') := by
  cases v with
  | int value radix => exact .int value radix h h'
  | float value => exact .float value h h'

end Wdl
