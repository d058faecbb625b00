import Wdl.Proofs.Passages

/-!
# Wdl.Proofs.Branches -- the last branch of a conditional takes all that follows

A conditional has no token at its end, so an operator or access behind its last branch could belong
to that branch or to the conditional as a whole. It belongs to the branch: whatever text is an
expression on its own is one as the last branch. That is so as well where the conditional is an
operand itself.

* `choice` and `operation` list the lexemes of a conditional and of an operation on one, given a
  `Passage` for each piece: the text of the piece with the lexemes found in it and the expression it
  is read as. The pieces stand on lines of their own, so that no token of one goes on in the next.
* `choice_legible` and `operation_legible` say that these lexemes are found, `choice_writes` and
  `operation_writes` that they write the conditional and the operation.
* `choiceText` and `operationText` are the texts that they spell out.

The result is `parseExpr_alternative_extends`. Nothing is asked of the pieces but that they are
parsed, so they may hold escapes of any kind; what `rules.names` says of named characters is the
same in a piece and in the whole.
-/

namespace Wdl

open Scan
open Wdl.Parser (Script Place)

variable {fe : FrontEnd} {A : Expect} {rules : Rules} {gap rest : List Char}

/-! ## Tokens at the end of a line

A line feed goes on with no word and no symbol, so whatever stands at the end of a line is found as
it is. -/

/-- A keyword at the end of a line is found. -/
theorem reads_keyword_line {k : Keyword} (quiet : ordinary A = true) (name : .name ∈ A)
    (mem : .keyword k ∈ A) (layout : Gap false gap false) :
    fe.Reads A gap (.keyword k) k.spelling ('\n' :: rest) := by
  refine reads_keyword quiet name layout mem ?_
  rintro c ⟨⟩
  decide

/-- A symbol at the end of a line is found. -/
theorem reads_symbol_line {s : Symbol} (quiet : ordinary A = true) (mem : .symbol s ∈ A)
    (other : s ≠ .tildeBrace) (layout : Gap false gap false) :
    fe.Reads A gap (.symbol s) s.spelling ('\n' :: rest) := by
  refine reads_symbol quiet layout mem (clear_of_head rfl (by decide)) other fun _ => ?_
  rintro c ⟨⟩
  decide

/-! ## Conditionals

The layout behind a piece is skipped in front of the next token, so it is the gap of the keyword
that follows. Only behind the last branch there is nothing that follows, which is why its layout is
left over (`S.gap`). -/

namespace Passage

variable {ps cs as ss : List Char} {p c a s : Expr}

/-- The text of a passage that starts on a new line. -/
theorem spelled_line (P : Passage rules ps p) (ms : List Lexeme) :
    spelled (indented ['\n'] P.lexemes ++ ms) ++ rest =
      '\n' :: (spelled P.lexemes ++ (spelled ms ++ rest)) := by
  rw [spelled_append, spelled_indented _ P.lexemes_ne_nil]
  simp

/-- A passage that starts on a new line is read in front of what is found behind it. -/
theorem legible_then (P : Passage rules ps p) {l : Lexeme} {ms : List Lexeme}
    (trail : l.gap = P.trail)
    (next : ∀ A ∈ Place.plain.ends, Legible rules.frontEnd A (l :: ms) rest) :
    Legible rules.frontEnd Expect.expr (indented ['\n'] P.lexemes ++ l :: ms) rest := by
  refine legible_append.2 ⟨?_, ?_⟩
  · rw [spelled_cons, trail, List.append_assoc]
    exact (P.legible_line _).indented (by decide) (.newline (.nil false))
  · rw [lastExpect_indented]
    exact next _ (P.lastExpect _)

/-- The lexemes of a conditional whose pieces stand on lines of their own. -/
def choice (gap : List Char) (C : Passage rules cs c) (A : Passage rules as a)
    (S : Passage rules ss s) : List Lexeme :=
  .keyword gap .kwIf Expect.expr :: (indented ['\n'] C.lexemes ++
    .keyword C.trail .kwThen Expect.expr :: (indented ['\n'] A.lexemes ++
      .keyword A.trail .kwElse Expect.expr :: (indented ['\n'] S.lexemes ++ [])))

variable (C : Passage rules cs c) (A : Passage rules as a) (S : Passage rules ss s)

/-- The lexemes of a conditional are found in its text. -/
theorem choice_legible (layout : Gap false gap false) :
    Legible rules.frontEnd Expect.expr (choice gap C A S) (S.gap ++ ['\n']) := by
  have between : ∀ B ∈ Place.plain.ends, ∀ k ∈ [Keyword.kwThen, .kwElse],
      Terminal.name ∈ B ∧ .keyword k ∈ B := by decide
  refine ⟨?_, C.legible_then rfl fun B hB => ⟨?_, A.legible_then rfl fun B hB => ⟨?_, ?_⟩⟩⟩
  · rw [spelled_line]
    exact reads_keyword_line (by decide) (by decide) (by decide) layout
  · rw [spelled_line]
    obtain ⟨name, looked⟩ := between B hB .kwThen (by decide)
    exact reads_keyword_line (ordinary_ends hB) name looked C.trail_layout
  · rw [spelled_line]
    obtain ⟨name, looked⟩ := between B hB .kwElse (by decide)
    exact reads_keyword_line (ordinary_ends hB) name looked A.trail_layout
  · rw [List.append_nil]
    exact (S.legible []).indented (by decide) (.newline (.nil false))

/-- A conditional is written at any position. -/
theorem choice_writes (gap : List Char) (at_ : Nat) : ∃ σ e,
    Script .primary .plain σ (stepsFrom at_ (choice gap C A S)) ∧ Build.expr rules σ = .ok e ∧
      ∀ r, e.view = (Expr.ifThenElse r c a s).view := by
  simp only [choice, List.append_nil, stepsFrom, stepsFrom_append, stepsFrom_indented]
  -- where the pieces start does not matter, as a passage says the same at any position
  generalize at_ + _ + List.length ['\n'] = i
  generalize at_ + _ + (spelled _).length = j
  generalize j + _ + List.length ['\n'] = k
  generalize j + _ + (spelled _).length = m
  generalize m + _ + List.length ['\n'] = n
  obtain ⟨σc, c', scriptc, builtc, viewc⟩ := C.moved i
  obtain ⟨σa, a', scripta, builta, viewa⟩ := A.moved k
  obtain ⟨σs, s', scripts, builts, views⟩ := S.moved n
  have script := @Script.choice .plain ((Lexeme.keyword gap .kwIf Expect.expr).step at_).token
    ((Lexeme.keyword C.trail .kwThen Expect.expr).step j).token
    ((Lexeme.keyword A.trail .kwElse Expect.expr).step m).token _ _ _ _ _ _ rfl rfl rfl
    scriptc scripta scripts
  have built : ∀ r, Build.expr rules (.choice r σc σa σs) = .ok (.ifThenElse r c' a' s') := by
    intro r
    simp only [Build.expr, builtc, builta, builts]
    rfl
  refine ⟨_, _, script, built _, fun r => ?_⟩
  simp only [Expr.view, viewc, viewa, views]

/-- The text of a passage with what follows on the next line. -/
theorem spelled_trail (P : Passage rules ps p) (more : List Char) :
    spelled P.lexemes ++ (P.trail ++ more) = ps ++ '\n' :: more := by
  rw [← List.append_assoc, ← P.text_line, List.append_assoc, List.singleton_append]

/-- The lexemes of a conditional spell out its text. -/
theorem spelled_choice (gap : List Char) :
    spelled (choice gap C A S) ++ (S.gap ++ ['\n']) =
      gap ++ (Keyword.kwIf.spelling ++ '\n' :: (cs ++ '\n' :: (Keyword.kwThen.spelling ++ '\n' ::
        (as ++ '\n' :: (Keyword.kwElse.spelling ++ '\n' :: Parser.terminated ss))))) := by
  rw [S.text]
  simp only [choice, spelled_cons, List.append_assoc, Lexeme.keyword, spelled_line, spelled_nil,
    List.nil_append, spelled_trail]

/-! ## Operations -/

/-- One operator between two operands is applied to them. -/
theorem view_nestChain (fe : FrontEnd) (first second : Build.Placed) (o : BinaryOp) (r : Range) :
    (Build.nestChain fe first [(o, second)]).view = (Expr.binary r o first.2 second.2).view := by
  cases fe <;> cases o <;> rfl

/-- The lexemes of an operation on an expression in parentheses and a conditional. -/
def operation (P : Passage rules ps p) (o : BinaryOp) (C : Passage rules cs c)
    (A : Passage rules as a) (S : Passage rules ss s) : List Lexeme :=
  .symbol [] .parenOpen Expect.expr :: (indented ['\n'] P.lexemes ++
    .symbol P.trail .parenClose Expect.afterOperand ::
      .symbol ['\n'] o.symbol Expect.expr :: choice ['\n'] C A S)

variable (P : Passage rules ps p) (o : BinaryOp)

/-- The lexemes of an operation on a conditional are found in its text. -/
theorem operation_legible :
    Legible rules.frontEnd Expect.expr (operation P o C A S) (S.gap ++ ['\n']) := by
  have layout : Gap false ['\n'] false := .newline (.nil false)
  have closes : ∀ B ∈ Place.plain.ends, .symbol .parenClose ∈ B := by decide
  refine ⟨?_, P.legible_then rfl fun B hB => ⟨?_, ?_, choice_legible C A S layout⟩⟩
  · rw [spelled_line]
    exact reads_symbol_line (by decide) (by decide) (by decide) (.nil false)
  · exact reads_symbol_line (ordinary_ends hB) (closes B hB) (by decide) P.trail_layout
  · -- no operator goes on with the line feed that the conditional starts with
    rw [spelled_choice]
    have quiet : ordinary Expect.afterOperand = true := by decide
    have looked : .symbol o.symbol ∈ Expect.afterOperand := by cases o <;> decide
    exact reads_symbol_line quiet looked (by cases o <;> decide) layout

/-- An operation on an expression in parentheses and a conditional is written at any position. -/
theorem operation_writes (at_ : Nat) : ∃ σ e,
    Script .expr .plain σ (stepsFrom at_ (operation P o C A S)) ∧ Build.expr rules σ = .ok e ∧
      ∀ r r', e.view = (Expr.binary r o p (.ifThenElse r' c a s)).view := by
  simp only [operation, stepsFrom, stepsFrom_append, stepsFrom_indented]
  generalize at_ + _ + List.length ['\n'] = i
  generalize at_ + _ + (spelled _).length = j
  generalize j + _ = k
  generalize k + _ = m
  obtain ⟨σp, p', scriptp, builtp, viewp⟩ := P.moved i
  obtain ⟨σq, q, scriptq, builtq, viewq⟩ := choice_writes C A S ['\n'] m
  have group := @Script.group .plain ((Lexeme.symbol [] .parenOpen Expect.expr).step at_).token
    ((Lexeme.symbol P.trail .parenClose Expect.afterOperand).step j).token _ _ rfl rfl scriptp
  have op : Parser.binaryOp? (.symbol o.symbol) = some o := by cases o <;> rfl
  have chain := Script.chain
    [⟨o, ((Lexeme.symbol ['\n'] o.symbol Expect.expr).step k).token, ⟨σq, _⟩⟩] (by simp)
    (.unsigned (.bare group)) (List.forall_mem_singleton.2 op)
    (List.forall_mem_singleton.2 (.unsigned (.bare scriptq))) (by simp [Parser.endsOpen])
  simp only [List.flatMap_singleton, List.map_singleton, Parser.Link.steps, Parser.Link.link,
    List.cons_append, List.append_assoc, List.nil_append] at chain
  have built : ∀ r, Build.expr rules (.chain (.group r σp) [(o, σq)]) =
      .ok (Build.nestChain rules.frontEnd (r, p'.withRange r) [(o, σq.range, q)]) := by
    intro r
    simp only [Build.expr, Build.operands, builtp, builtq]
    rfl
  refine ⟨_, _, chain, built _, fun r r' => ?_⟩
  rw [view_nestChain _ _ _ o r]
  simp only [Expr.view, view_withRange, viewp, viewq r']

/-- The lexemes of an operation on a conditional spell out its text. -/
theorem spelled_operation :
    spelled (operation P o C A S) ++ (S.gap ++ ['\n']) =
      Symbol.parenOpen.spelling ++ '\n' :: (ps ++ '\n' :: (Symbol.parenClose.spelling ++ '\n' ::
        (o.symbol.spelling ++ '\n' :: (Keyword.kwIf.spelling ++ '\n' :: (cs ++ '\n' ::
          (Keyword.kwThen.spelling ++ '\n' :: (as ++ '\n' :: (Keyword.kwElse.spelling ++ '\n' ::
            Parser.terminated ss)))))))) := by
  simp only [operation, spelled_cons, List.append_assoc, spelled_line, spelled_choice]
  simp only [Lexeme.symbol, spelled_trail, List.nil_append, List.cons_append]

/-- What lexemes write in front of the layout of a passage is parsed. -/
theorem parses {source : SourceText} {ls : List Lexeme} {σ : Surface.Expr} {e : Expr}
    (S : Passage rules ss s) (legible : Legible rules.frontEnd Expect.expr ls (S.gap ++ ['\n']))
    (text : Parser.terminated source.chars = spelled ls ++ (S.gap ++ ['\n']))
    (script : Script .expr .plain σ (stepsFrom 0 ls)) (built : Build.expr rules σ = .ok e) :
    (parseExpr rules source).result = .ok e :=
  parseExpr_eq_ok (legible.parse text S.layout.layoutLength_whole script) built

end Passage

/-! ## The text of the last branch -/

/-- The text of a conditional, with its pieces on lines of their own. -/
def choiceText (condition consequent alternative : String) : String :=
  "if\n" ++ condition ++ "\nthen\n" ++ consequent ++ "\nelse\n" ++ alternative

/-- The text of an operation on an operand in parentheses and what follows. -/
def operationText (operand : String) (o : BinaryOp) (rest : String) : String :=
  "(\n" ++ operand ++ "\n)\n" ++ o.spelling ++ "\n" ++ rest

/-- The text of a conditional ends with that of its last branch. -/
theorem toList_choiceText (C A S : String) : (choiceText C A S).toList =
    Keyword.kwIf.spelling ++ '\n' :: (C.toList ++ '\n' :: (Keyword.kwThen.spelling ++ '\n' ::
      (A.toList ++ '\n' :: (Keyword.kwElse.spelling ++ ['\n'])))) ++ S.toList := by
  have first : "if\n".toList = Keyword.kwIf.spelling ++ ['\n'] := by decide
  have second : "\nthen\n".toList = '\n' :: (Keyword.kwThen.spelling ++ ['\n']) := by decide
  have third : "\nelse\n".toList = '\n' :: (Keyword.kwElse.spelling ++ ['\n']) := by decide
  simp only [choiceText, String.toList_append, first, second, third, List.append_assoc,
    List.cons_append, List.nil_append]

/-- The text of an operation ends with that of its right operand. -/
theorem toList_operationText (P : String) (o : BinaryOp) (rest : String) :
    (operationText P o rest).toList = Symbol.parenOpen.spelling ++ '\n' :: (P.toList ++ '\n' ::
      (Symbol.parenClose.spelling ++ '\n' :: (o.symbol.spelling ++ ['\n']))) ++ rest.toList := by
  have first : "(\n".toList = Symbol.parenOpen.spelling ++ ['\n'] := by decide
  have second : "\n)\n".toList = '\n' :: (Symbol.parenClose.spelling ++ ['\n']) := by decide
  have third : "\n".toList = ['\n'] := by decide
  simp only [operationText, String.toList_append, first, second, third, BinaryOp.spelling_symbol,
    List.append_assoc, List.cons_append, List.nil_append]

/-- The last branch of a conditional extends as far as possible. Whatever operators, accesses or
conditionals its text contains, a conditional is read from the texts of its pieces; and one that is
the right operand of an operator is so as a whole. -/
theorem parseExpr_alternative_extends (rules : Rules) (uri abspath : String) {C A S : String}
    {c a s : Expr} (condition : (parseExpr rules (.ofString C uri abspath)).result = .ok c)
    (consequent : (parseExpr rules (.ofString A uri abspath)).result = .ok a)
    (alternative : (parseExpr rules (.ofString S uri abspath)).result = .ok s) :
    (∃ e, (parseExpr rules (.ofString (choiceText C A S) uri abspath)).result = .ok e ∧
      ∀ r, (Node.expr e).same (.expr (.ifThenElse r c a s)) = true) ∧
    ∀ {P : String} {p : Expr}, (parseExpr rules (.ofString P uri abspath)).result = .ok p →
      ∀ o : BinaryOp, ∃ e,
        (parseExpr rules (.ofString (operationText P o (choiceText C A S)) uri abspath)).result =
          .ok e ∧
        ∀ r r', (Node.expr e).same (.expr (.binary r o p (.ifThenElse r' c a s))) = true := by
  obtain ⟨C'⟩ := parseExpr_passage condition
  obtain ⟨A'⟩ := parseExpr_passage consequent
  obtain ⟨S'⟩ := parseExpr_passage alternative
  have ne : S.toList ≠ [] := S'.ne_nil
  constructor
  · obtain ⟨σ, e, script, built, view⟩ := Passage.choice_writes C' A' S' [] 0
    have text : Parser.terminated (choiceText C A S).toList =
        spelled (Passage.choice [] C' A' S') ++ (S'.gap ++ ['\n']) := by
      rw [toList_choiceText, terminated_append _ ne, Passage.spelled_choice]
      simp [SourceText.ofString]
    refine ⟨e, S'.parses (Passage.choice_legible C' A' S' (.nil false)) text script.toExpr built,
      fun r => View.same_iff.2 (congrArg View.normal (view r))⟩
  · intro P p operand o
    obtain ⟨P'⟩ := parseExpr_passage operand
    obtain ⟨σ, e, script, built, view⟩ := Passage.operation_writes C' A' S' P' o 0
    have text : Parser.terminated (operationText P o (choiceText C A S)).toList =
        spelled (Passage.operation P' o C' A' S') ++ (S'.gap ++ ['\n']) := by
      rw [toList_operationText, toList_choiceText, ← List.append_assoc,
        terminated_append _ ne, Passage.spelled_operation]
      simp [SourceText.ofString]
    refine ⟨e, S'.parses (Passage.operation_legible C' A' S' P' o) text script built,
      fun r r' => View.same_iff.2 (congrArg View.normal (view r r'))⟩

/-- The last branch is a conditional itself, and its last branch a sum. -/
theorem parseExpr_alternative_extends_nested :
    let read := fun text => (parseExpr ⟨.flat, reservedWords, .none⟩ (.ofString text "" "")).result
    ∃ c a s p, read "x" = .ok c ∧ read "[y]" = .ok a ∧ read "if u then v else w + z[0].m" = .ok s ∧
      read "q # p" = .ok p ∧
      (∃ e, read (choiceText "x" "[y]" "if u then v else w + z[0].m") = .ok e ∧
        ∀ r, (Node.expr e).same (.expr (.ifThenElse r c a s)) = true) ∧
      ∃ e, read (operationText "q # p" .mul
          (choiceText "x" "[y]" "if u then v else w + z[0].m")) = .ok e ∧
        ∀ r r', (Node.expr e).same (.expr (.binary r .mul p (.ifThenElse r' c a s))) = true := by
  intro read
  have found : ∀ text ∈ ["x", "[y]", "if u then v else w + z[0].m", "q # p"],
      (read text).toOption.isSome = true := by decide +kernel
  have parsed : ∀ text ∈ ["x", "[y]", "if u then v else w + z[0].m", "q # p"],
      ∃ e, read text = .ok e := by
    intro text mem
    obtain ⟨e, he⟩ := Option.isSome_iff_exists.1 (found text mem)
    exact ⟨e, toOption_eq_some.1 he⟩
  obtain ⟨c, hc⟩ := parsed "x" (by simp)
  obtain ⟨a, ha⟩ := parsed "[y]" (by simp)
  obtain ⟨s, hs⟩ := parsed "if u then v else w + z[0].m" (by simp)
  obtain ⟨p, hp⟩ := parsed "q # p" (by simp)
  obtain ⟨choice, operation⟩ := parseExpr_alternative_extends
    ⟨.flat, reservedWords, .none⟩ "" "" hc ha hs
  exact ⟨c, a, s, p, hc, ha, hs, hp, choice, operation hp .mul⟩

end Wdl
