import Wdl.Proofs.Recognition

/-!
# Wdl.Proofs.Respacing -- the same tokens at another place

Layout in front of a token is passed over, however much of it there is, wherever no literal text is
looked for. So legible texts may be put behind more layout, one text may be put behind another, and
the tokens only move.

* `FrontEnd.Reads.behind` is one token behind more layout, and `Legible.indented` a whole text.
* `legible_append` cuts a legible text in two, or puts two together.
* `stepsFrom_from` moves the steps of lexemes from one place to another, and `keeps_from` says that
  they keep their lengths, which is what `Wdl.Proofs.Transposition` asks for.
-/

namespace Wdl

open Scan
open Wdl.Parser (isLiteral Step)

variable {fe : FrontEnd} {A : Expect} {g g' chars rest : List Char} {kind : Terminal}
  {ls ms : List Lexeme}

/-! ## Cuts -/

/-- What is cut out of a text between two positions. -/
theorem take_drop_eq {cs : List Char} {a : Nat} {gap text rest : List Char}
    (h : cs.drop a = gap ++ (text ++ rest)) :
    (cs.drop (a + gap.length)).take text.length = text := by
  rw [← List.drop_drop, h, List.drop_left, List.take_left]

/-- What is cut out of a text does not depend on the line feed behind it. -/
theorem terminated_cut {cs : List Char} {a b : Nat} (le : b ≤ cs.length) :
    ((Parser.terminated cs).drop a).take (b - a) = (cs.drop a).take (b - a) := by
  unfold Parser.terminated
  split
  · rfl
  · by_cases inside : a ≤ cs.length
    · rw [List.drop_append_of_le_length inside, List.take_append_of_le_length]
      rw [List.length_drop]
      omega
    · have empty : b - a = 0 := by omega
      rw [empty, List.take_zero, List.take_zero]

/-! ## More layout

Layout is read by a machine with one bit, which says whether a comment is open. So layout that
leaves no comment open can be put in front of other layout. `FrontEnd.Reads.closed` says that in
front of a token there is no other. -/

/-- Layout behind layout is layout. -/
theorem Scan.Gap.append {a b c : Bool} (h : Gap a g b) (h' : Gap b g' c) : Gap a (g ++ g') c := by
  induction h with
  | nil => exact h'
  | windows _ ih => exact .windows (ih h')
  | newline _ ih => exact .newline (ih h')
  | remark carriage newline _ ih => exact .remark carriage newline (ih h')
  | hash _ ih => exact .hash (ih h')
  | blank blank _ ih => exact .blank blank (ih h')

/-- A token is found behind more layout. -/
theorem FrontEnd.Reads.behind (h : fe.Reads A g' kind chars rest) (quiet : Parser.calm A = true)
    (layout : Gap false g false) : fe.Reads A (g ++ g') kind chars rest := by
  obtain ⟨-, size, found⟩ := h.plain (h.calm quiet)
  refine .inr ⟨calm_literal? quiet _, ?_, found⟩
  rw [List.append_assoc, layout.layoutLength_append, size, List.length_append, Nat.add_comm]

/-- No token starts with a carriage return. -/
theorem plain?_carriage (fe : FrontEnd) (A : Expect) (cs : List Char) :
    plain? fe A ('\r' :: cs) = none := by
  have number : number? fe A ('\r' :: cs) = none := number?_of_other (by decide) (by simp)
  have opening : class? A .opening openingLength? ('\r' :: cs) = none :=
    class?_of_none (openingLength?_of_other rfl _)
  have quoted : ∀ q, class? A (.quoted q) (quotedLength? q) ('\r' :: cs) = none := by
    intro q
    exact class?_of_none (quotedLength?_of_other (by cases q <;> decide) _)
  have mark : ∀ q : Quote, class? A (.mark q) (spellingLength? [q.char]) ('\r' :: cs) = none := by
    intro q
    refine class?_of_none ?_
    cases q <;> simp [spellingLength?, Quote.char]
  have word : word? A ('\r' :: cs) = none := word?_of_other (by decide) cs
  have version : class? A .versionWord (Numeral.runLength? isVersionChar) ('\r' :: cs) = none := by
    refine class?_of_none ?_
    simp [Numeral.runLength?, Numeral.runLength, isVersionChar]
  have symbol : symbol? A ('\r' :: cs) = none := symbol?_of_other (by decide) cs
  simp only [plain?, number, opening, quoted, mark, word, version, symbol]
  rfl

/-- What is in front of a token is layout that leaves no comment open. -/
theorem FrontEnd.Reads.closed (h : fe.Reads A g kind chars rest) (plain : isLiteral kind = false) :
    Gap false g false := by
  obtain ⟨-, size, found⟩ := h.plain plain
  obtain ⟨b, split, stop⟩ := layoutLength_split false (g ++ (chars ++ rest))
  rw [size, List.take_left] at split
  rw [size, List.drop_left] at stop
  cases b with
  | false => exact split
  | true =>
    -- in a comment all is layout but a carriage return, and with that no token starts
    generalize chars ++ rest = cs at stop found
    match cs with
    | [] =>
      have fits := ((steady_plain fe A).fits found)
      simp only [List.length_nil] at fits
      omega
    | c :: cs =>
      by_cases carriage : c = '\r'
      · rw [carriage, plain?_carriage] at found
        cases found
      · rw [layoutLength, if_neg carriage] at stop
        · split at stop <;> cases stop
        · rintro more eq
          exact absurd eq carriage

/-- Lexemes behind more layout. -/
def indented (g : List Char) : List Lexeme → List Lexeme
  | [] => []
  | l :: ls => ⟨g ++ l.gap, l.kind, l.chars, l.after⟩ :: ls

/-- The added layout is spelled in front of all the rest. -/
theorem spelled_indented (g : List Char) (ne : ls ≠ []) :
    spelled (indented g ls) = g ++ spelled ls := by
  cases ls with
  | nil => exact absurd rfl ne
  | cons l ls => simp [indented]

/-- The steps start as far behind as the added layout is long. -/
theorem stepsFrom_indented (at_ : Nat) (g : List Char) (ls : List Lexeme) :
    stepsFrom at_ (indented g ls) = stepsFrom (at_ + g.length) ls := by
  cases ls with
  | nil => rfl
  | cons l ls => simp [indented, stepsFrom, Lexeme.step, Lexeme.text, Nat.add_assoc]

/-- What is looked for behind the last lexeme does not change. -/
theorem lastExpect_indented (A : Expect) (g : List Char) (ls : List Lexeme) :
    lastExpect A (indented g ls) = lastExpect A ls := by
  cases ls with
  | nil => rfl
  | cons l ls => rw [indented, lastExpect_cons, lastExpect_cons]

/-- Texts are legible behind more layout. -/
theorem Legible.indented (h : Legible fe A ls rest) (quiet : Parser.calm A = true)
    (layout : Gap false g false) : Legible fe A (indented g ls) rest := by
  cases ls with
  | nil => trivial
  | cons l ls => exact ⟨h.1.behind quiet layout, h.2⟩

/-! ## One text behind another

What is looked for behind the first text is what the second one starts among. -/

/-- Lexemes are legible just if the first ones are, and the others behind them. -/
theorem legible_append :
    Legible fe A (ls ++ ms) rest ↔
      Legible fe A ls (spelled ms ++ rest) ∧ Legible fe (lastExpect A ls) ms rest := by
  induction ls generalizing A with
  | nil => simp [Legible, lastExpect]
  | cons l ls ih =>
    rw [List.cons_append, Legible, Legible, ih, lastExpect_cons, spelled_append, List.append_assoc,
      and_assoc]

/-- The last lexeme is in the second part, or in the first if that is all. -/
theorem lastExpect_append (A : Expect) (ls ms : List Lexeme) :
    lastExpect A (ls ++ ms) = lastExpect (lastExpect A ls) ms := by
  induction ls generalizing A with
  | nil => rfl
  | cons l ls ih => rw [List.cons_append, lastExpect_cons, lastExpect_cons, ih]

/-! ## Other positions -/

/-- The steps of lexemes are the same anywhere, moved. -/
theorem stepsFrom_from (a b : Nat) (ls : List Lexeme) :
    (stepsFrom a ls).map (Step.move fun n => n - a + b) = stepsFrom b ls := by
  have each : ∀ k, (stepsFrom (a + k) ls).map (Step.move fun n => n - a + b) =
      stepsFrom (b + k) ls := by
    induction ls with
    | nil => intro k; rfl
    | cons l ls ih =>
      intro k
      have first : Step.move (fun n => n - a + b) (l.step (a + k)) = l.step (b + k) := by
        simp only [Step.move, Token.move, Lexeme.step, Step.mk.injEq, Token.mk.injEq, and_true,
          true_and]
        omega
      rw [stepsFrom, List.map_cons, first, Nat.add_assoc, ih]
      rw [stepsFrom, Nat.add_assoc]
  exact each 0

/-- Moved from one position to another, each token keeps its length. -/
theorem keeps_from (a b : Nat) (ls : List Lexeme) :
    ∀ x ∈ stepsFrom a ls, x.Keeps fun n => n - a + b := by
  intro x hx
  have start := le_start_stepsFrom x hx
  show x.token.start + x.token.chars.length - a + b = x.token.start - a + b + x.token.chars.length
  omega

end Wdl
