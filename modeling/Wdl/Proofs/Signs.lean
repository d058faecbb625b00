import Wdl.Proofs.Integers
import Wdl.Proofs.Restoration

/-!
# Wdl.Proofs.Signs -- integers behind signs

Signs in front of an integer become part of it, but whether the integer is in range is decided by
its digits alone, before any sign is folded in. So the integers that can be read, under whatever
signs, are symmetric around zero.

* `signedBy` is the value of an integer behind signs. `Build.applySign_int` and
  `Build.nestSigns_int` say that building folds signs into integers and keeps the radix.
* `signedLexemes` are the lexemes of an integer behind signs; `signs_of_lexemes` and
  `legible_signed` say that they write what they should and that a scanner finds them.
* `Build.expr_integer` is the check of the digits, and `signed_built` what the whole text is built
  to.
* `parseExpr_signed` is the result. Beside it stands the text of the least integer, which is
  refused.
-/

namespace Wdl

open Wdl.Parser (Script Level Sign Step numeral unaryOp?)
open Numeral (IsInteger intValue)

variable {fe : FrontEnd} {rules : Rules} {A : Expect} {radix : Radix} {text : List Char}

/-! ## Folding -/

/-- The value of a number with signs in front of it. -/
def signedBy : List UnaryOp → Int → Int
  | [], value => value
  | .neg :: ops, value => -signedBy ops value
  | _ :: ops, value => signedBy ops value

/-- A sign in front of an integer is folded into it. -/
theorem Build.applySign_int {op : UnaryOp} (sign : op ≠ .not) (r r' : Range) (value : Int)
    (radix : Radix) :
    applySign r op (.int r' value radix) = .int r (signedBy [op] value) radix := by
  cases op with
  | not => exact absurd rfl sign
  | neg => rfl
  | pos => rfl

/-- Signs in front of an integer are folded into it. -/
theorem Build.nestSigns_int (stop : Nat) {signs : List (UnaryOp × Range)}
    (plain : ∀ sign ∈ signs, sign.1 ≠ .not) (r : Range) (value : Int) (radix : Radix) :
    ∃ r', nestSigns stop signs (.int r value radix) =
      .int r' (signedBy (signs.map Prod.fst) value) radix := by
  induction signs with
  | nil => exact ⟨r, rfl⟩
  | cons sign signs ih =>
    obtain ⟨here, others⟩ := List.forall_mem_cons.1 plain
    obtain ⟨r', eq⟩ := ih others
    refine ⟨⟨sign.2.start, stop⟩, ?_⟩
    rw [nestSigns, eq, applySign_int here, List.map_cons]
    cases sign.1 <;> rfl

/-! ## The tokens of signs -/

/-- The lexemes of signs, one right behind the other. -/
def signLexemes (ops : List UnaryOp) : List Lexeme :=
  ops.map fun op => .symbol [] op.symbol Expect.expr

/-- The lexemes of an integer behind signs. -/
def signedLexemes (ops : List UnaryOp) (radix : Radix) (text : List Char) : List Lexeme :=
  signLexemes ops ++ [⟨[], .number radix.kind, text, Expect.afterNumber⟩]

/-- Signs are spelled one behind the other. -/
theorem spelled_signLexemes (ops : List UnaryOp) :
    spelled (signLexemes ops) = ops.flatMap fun op => op.spelling.toList := by
  induction ops with
  | nil => rfl
  | cons op ops ih =>
    rw [signLexemes, List.map_cons, spelled_cons, ← signLexemes, ih, List.flatMap_cons]
    simp [Lexeme.symbol]

/-- Every sign is one character. -/
theorem length_spelled_signs (ops : List UnaryOp) :
    (spelled (signLexemes ops)).length = ops.length := by
  rw [spelled_signLexemes, List.length_flatMap]
  have one : ∀ op : UnaryOp, op.spelling.toList.length = 1 := by
    intro op
    cases op <;> rfl
  simp [one]

/-- Behind the signs are the digits. -/
theorem spelled_signedLexemes (ops : List UnaryOp) (radix : Radix) (text : List Char) :
    spelled (signedLexemes ops radix text) =
      (ops.flatMap fun op => op.spelling.toList) ++ text := by
  simp [signedLexemes, spelled_signLexemes]

/-- An integer behind signs spans its signs and digits. -/
theorem spanOf_signedLexemes (ops : List UnaryOp) (radix : Radix) (text : List Char) :
    Parser.spanOf (stepsFrom 0 (signedLexemes ops radix text)) =
      ⟨0, ops.length + text.length⟩ := by
  have size : (spelled (signedLexemes ops radix text)).length = ops.length + text.length := by
    simp [signedLexemes, length_spelled_signs]
  obtain ⟨l, ls, eq, none⟩ : ∃ l ls, signedLexemes ops radix text = l :: ls ∧ l.gap = [] := by
    cases ops <;> exact ⟨_, _, rfl, rfl⟩
  rw [eq, spanOf_stepsFrom, ← eq, size, none]
  simp

/-- The steps of signs are those of a list of signs. -/
theorem signs_of_lexemes (at_ : Nat) (ops : List UnaryOp) :
    ∃ signs : List Sign, signs.map Sign.step = stepsFrom at_ (signLexemes ops) ∧
      (signs.map Sign.sign).map Prod.fst = ops ∧
      ∀ x ∈ signs, unaryOp? x.token.kind = some x.op := by
  induction ops generalizing at_ with
  | nil => exact ⟨[], rfl, rfl, by simp⟩
  | cons op ops ih =>
    obtain ⟨signs, steps, names, kinds⟩ := ih
      (at_ + (Lexeme.symbol [] op.symbol Expect.expr).text.length)
    refine ⟨⟨op, ((Lexeme.symbol [] op.symbol Expect.expr).step at_).token⟩ :: signs, ?_, ?_, ?_⟩
    · rw [List.map_cons, steps]
      rfl
    · rw [List.map_cons, List.map_cons, names]
      rfl
    · refine List.forall_mem_cons.2 ⟨?_, kinds⟩
      cases op <;> rfl

/-- An integer behind signs, at the end of a line, is legible. -/
theorem legible_signed (h : IsInteger radix text) (ops : List UnaryOp) (hA : A ∈ starts) :
    Legible fe A (signedLexemes ops radix text) ['\n'] := by
  induction ops generalizing A with
  | nil =>
    have ended : Ended ['\n'] := by
      intro c hc
      cases hc
      decide
    exact ⟨reads_number (ordinary_starts hA) (.nil false) (expr_subset hA (by decide))
      (Numeral.scanSeparately_integer h ended), trivial⟩
  | cons op ops ih =>
    exact legible_symbol hA (.inl rfl) (by cases op <;> decide) (ih (by decide))

/-! ## Whole texts -/

/-- Whether an integer is refused depends on its digits, and they are where it is refused. -/
theorem Build.expr_integer (h : IsInteger radix text) (r : Range) :
    expr rules (.number ⟨r, radix.kind, text⟩) =
      if intValue radix text ≤ maxInt then .ok (.int r (intValue radix text) radix)
      else violate (beyond radix text) r := by
  rw [expr, numberValue_integer h]
  split <;> rfl

/-- The tokens of an integer behind signs write an expression that is built to the signed value, if
the digits are in range, and is refused where the digits are, otherwise. -/
theorem signed_built (h : IsInteger radix text) {ops : List UnaryOp} (plain : .not ∉ ops) :
    ∃ σ, Script .expr .plain σ (stepsFrom 0 (signedLexemes ops radix text)) ∧
      if intValue radix text ≤ maxInt then
        ∃ r, Build.expr rules σ = .ok (.int r (signedBy ops (intValue radix text)) radix)
      else Build.expr rules σ = .error
        ⟨Build.beyond radix text, ⟨ops.length, ops.length + text.length⟩⟩ := by
  obtain ⟨signs, steps, names, kinds⟩ := signs_of_lexemes 0 ops
  have range : Token.range ⟨.number radix.kind, text, ops.length⟩ =
      ⟨ops.length, ops.length + text.length⟩ := rfl
  have number : Script .accessed .plain
      (.number (numeral radix.kind ⟨.number radix.kind, text, ops.length⟩))
      [⟨⟨.number radix.kind, text, ops.length⟩, Expect.afterNumber⟩] :=
    .bare (.number radix.kind _ rfl)
  have written : stepsFrom 0 (signedLexemes ops radix text) =
      signs.map Sign.step ++ [⟨⟨.number radix.kind, text, ops.length⟩, Expect.afterNumber⟩] := by
    rw [signedLexemes, stepsFrom_append, ← steps, length_spelled_signs, Nat.zero_add]
    rfl
  have built := @Build.expr_integer rules _ _ h ⟨ops.length, ops.length + text.length⟩
  rw [written]
  -- without signs the number is the whole expression, with the range of the digits
  by_cases none : ops = []
  · subst none
    obtain rfl : signs = [] := by simpa using names
    refine ⟨_, .single (.unsigned number), ?_⟩
    rw [numeral, range, built]
    split
    · exact ⟨_, rfl⟩
    · rfl
  · have ne : signs ≠ [] := by
      rintro rfl
      exact none names.symm
    have signed : ∀ sign ∈ signs.map Sign.sign, sign.1 ≠ .not := by
      intro sign mem isNot
      refine plain ?_
      rw [← names, ← isNot]
      exact List.mem_map_of_mem mem
    refine ⟨_, .single (.signed signs ne kinds number), ?_⟩
    rw [Build.expr, numeral, range, built]
    split
    · obtain ⟨r, eq⟩ := Build.nestSigns_int (Surface.Expr.signed (signs.map Sign.sign)
        (.number ⟨⟨ops.length, ops.length + text.length⟩, radix.kind, text⟩)).range.stop signed
        ⟨ops.length, ops.length + text.length⟩ (intValue radix text) radix
      refine ⟨r, ?_⟩
      rw [names] at eq
      rw [← eq]
      exact congrArg Except.ok (Parser.applySigns_eq _ _ _ _)
    · rfl

/-- An integer behind signs is read as its signed value if its digits write a number up to the
greatest integer, whatever the signs are, and is refused otherwise: the least integer, of which the
digits write one more, cannot be read. -/
theorem parseExpr_signed (rules : Rules) {source : SourceText} {ops : List UnaryOp}
    (chars : source.chars = (ops.flatMap fun op => op.spelling.toList) ++ text)
    (plain : .not ∉ ops) (h : IsInteger radix text) :
    (parseExpr rules source).result =
      if intValue radix text ≤ maxInt then
        .ok (.int ⟨0, ops.length + text.length⟩ (signedBy ops (intValue radix text)) radix)
      else .error (.violated rules.frontEnd
        ⟨Build.beyond radix text, ⟨ops.length, ops.length + text.length⟩⟩) := by
  obtain ⟨σ, script, built⟩ := @signed_built rules _ _ h _ plain
  have parsed := (@legible_signed rules.frontEnd _ _ _ h ops (by decide)).parse_spelled script
  rw [spelled_signedLexemes, ← chars] at parsed
  rw [parseExpr_of_surface parsed]
  split at built
  · rename_i small
    obtain ⟨r, built⟩ := built
    -- what is built has the range of its tokens
    have range : r = ⟨0, ops.length + text.length⟩ := by
      rw [← spanOf_signedLexemes ops radix text, ← script.range_eq]
      exact Build.expr_range rules σ built
    rw [if_pos small, built, range]
    rfl
  · rename_i great
    rw [if_neg great, built]
    rfl

/-- The least integer of 64 bits is refused, although its value is in range. -/
example : (parseExpr ⟨.tree, reservedWords, .none⟩
    (.ofString "-9223372036854775808" "" "")).result.toOption.isSome = false := by
  decide +kernel

end Wdl
