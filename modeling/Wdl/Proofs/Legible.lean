import Wdl.Proofs.Documents
import Wdl.Proofs.Replay

/-!
# Wdl.Proofs.Legible -- texts as lists of tokens

A text is legible as a list of tokens with gaps if each token is found where it stands, among what
is looked for there. A run of a parser is just a list of tokens as which its text is legible. So
what a parser does with a text can be settled on the tokens, and whether the tokens are found there
apart from that.

* `Lexeme` is a token with the layout in front of it and what is looked for behind it. `spelled`
  gives the text of a list of lexemes, and `stepsFrom` their steps if the first stands at a given
  position.
* `Legible fe expect ls rest` is the relation, by recursion on the lexemes.
* `Legible.run` and `Parser.Run.legible` are the two directions between legible texts and runs.
* `Legible.whole` and `Legible.parse` are what later modules use: a text that is legible as the
  tokens of a script is parsed as what the script writes.
-/

namespace Wdl

open Scan

/-! ## Where literal text is looked for -/

namespace Parser

/-- No literal text is looked for. -/
def calm (A : Expect) : Bool := A.all fun t => !isLiteral t

end Parser

/-- Where no literal text is looked for, a scanner passes over layout first. -/
theorem calm_literal? {A : Expect} (quiet : Parser.calm A = true) (cs : List Char) :
    literal? A cs = none := by
  refine literal?_eq_none (fun t ht => ?_) cs
  simpa using List.all_eq_true.1 quiet t ht

/-! ## Lexemes -/

/-- A token with the layout in front of it, and what is looked for behind it. -/
structure Lexeme where
  gap : List Char
  kind : Terminal
  chars : List Char
  after : Expect

namespace Lexeme

/-- The characters of a lexeme. -/
def text (l : Lexeme) : List Char := l.gap ++ l.chars

/-- The step of a lexeme that stands at a position. -/
def step (at_ : Nat) (l : Lexeme) : Parser.Step := ⟨⟨l.kind, l.chars, at_ + l.gap.length⟩, l.after⟩

end Lexeme

/-- The text of a list of lexemes. -/
def spelled (ls : List Lexeme) : List Char := ls.flatMap Lexeme.text

@[simp] theorem spelled_nil : spelled [] = [] := rfl

@[simp] theorem spelled_cons (l : Lexeme) (ls : List Lexeme) :
    spelled (l :: ls) = l.gap ++ (l.chars ++ spelled ls) := by
  simp [spelled, Lexeme.text]

@[simp] theorem spelled_append (ls ms : List Lexeme) :
    spelled (ls ++ ms) = spelled ls ++ spelled ms := List.flatMap_append

/-- The steps of lexemes of which the first stands at a position. -/
def stepsFrom (at_ : Nat) : List Lexeme → List Parser.Step
  | [] => []
  | l :: ls => l.step at_ :: stepsFrom (at_ + l.text.length) ls

/-- The lexemes behind some others start where these end. -/
theorem stepsFrom_append (at_ : Nat) (ls ms : List Lexeme) :
    stepsFrom at_ (ls ++ ms) = stepsFrom at_ ls ++ stepsFrom (at_ + (spelled ls).length) ms := by
  induction ls generalizing at_ with
  | nil => rfl
  | cons l ls ih =>
    rw [List.cons_append, stepsFrom, stepsFrom, ih, spelled_cons]
    simp only [List.cons_append, Lexeme.text, List.length_append, Nat.add_assoc]

/-- Where lexemes stand changes nothing about their kinds. -/
theorem stepsFrom_map (at_ : Nat) (ls : List Lexeme) :
    (stepsFrom at_ ls).map (fun x => (x.token.kind, x.after)) =
      ls.map fun l => (l.kind, l.after) := by
  induction ls generalizing at_ with
  | nil => rfl
  | cons l ls ih => exact congrArg ((l.kind, l.after) :: ·) (ih _)

/-- No token stands in front of the first lexeme. -/
theorem le_start_stepsFrom {at_ : Nat} {ls : List Lexeme} :
    ∀ x ∈ stepsFrom at_ ls, at_ ≤ x.token.start := by
  induction ls generalizing at_ with
  | nil => simp [stepsFrom]
  | cons l ls ih =>
    intro x hx
    rcases List.mem_cons.1 hx with rfl | hx
    · exact Nat.le_add_right _ _
    · exact Nat.le_trans (Nat.le_add_right _ _) (ih x hx)

/-- The steps of lexemes span all their text but the first gap. -/
theorem spanOf_stepsFrom (at_ : Nat) (l : Lexeme) (ls : List Lexeme) :
    Parser.spanOf (stepsFrom at_ (l :: ls)) =
      ⟨at_ + l.gap.length, at_ + (spelled (l :: ls)).length⟩ := by
  induction ls generalizing at_ l with
  | nil =>
    rw [stepsFrom, stepsFrom, Parser.spanOf_single]
    simp [Lexeme.step, Token.range, Token.stop, Nat.add_assoc]
  | cons m ls ih =>
    rw [stepsFrom, Parser.spanOf_cons _ (by simp [stepsFrom]), ih, spelled_cons l]
    show Range.mk _ _ = _
    simp only [Lexeme.step, Lexeme.text, Token.range, List.length_append, Nat.add_assoc]

/-- What is looked for behind the last of some lexemes. -/
def lastExpect (expect : Expect) (ls : List Lexeme) : Expect :=
  (ls.getLast?.map Lexeme.after).getD expect

theorem lastExpect_cons (expect : Expect) (l : Lexeme) (ls : List Lexeme) :
    lastExpect expect (l :: ls) = lastExpect l.after ls := by
  rw [lastExpect, lastExpect, List.getLast?_cons]
  cases ls.getLast? <;> rfl

/-! ## Legible texts

Each lexeme is looked for among what the one before expects. The last one leaves a set behind it,
`lastExpect`, with which the rest of the text is read. -/

/-- Each lexeme is found where it stands, before the text of the others and the rest. -/
def Legible (fe : FrontEnd) : Expect → List Lexeme → List Char → Prop
  | _, [], _ => True
  | expect, l :: ls, rest =>
    fe.Reads expect l.gap l.kind l.chars (spelled ls ++ rest) ∧ Legible fe l.after ls rest

variable {fe : FrontEnd} {expect : Expect} {ls : List Lexeme} {rest : List Char}

/-- The first lexeme of a legible text is found. -/
theorem Legible.next {l : Lexeme} (h : Legible fe expect (l :: ls) rest) (at_ : Nat) :
    fe.next expect ⟨at_, spelled (l :: ls) ++ rest⟩ =
      .ok (some (l.step at_).token, ⟨(l.step at_).token.stop, spelled ls ++ rest⟩) := by
  refine next_eq_some.2 ⟨l.gap, ?_, rfl, rfl, h.1⟩
  show spelled (l :: ls) ++ rest = l.gap ++ (l.chars ++ (spelled ls ++ rest))
  rw [spelled_cons, List.append_assoc, List.append_assoc]

/-- In front of a legible text a token is found, or what is found behind it. -/
theorem Legible.found (h : Legible fe expect ls rest) {at_ : Nat} {ahead : Option Token}
    {cursor : Cursor} (stop : fe.next (lastExpect expect ls)
      ⟨at_ + (spelled ls).length, rest⟩ = .ok (ahead, cursor)) :
    ∃ found, fe.next expect ⟨at_, spelled ls ++ rest⟩ = .ok found := by
  cases ls with
  | nil => exact ⟨_, stop⟩
  | cons l ls => exact ⟨_, h.next at_⟩

/-- The tokens of a legible text are taken one by one. -/
theorem Legible.run (h : Legible fe expect ls rest) {at_ : Nat} {ahead ahead' : Option Token}
    {cursor cursor' : Cursor} {last : Option Range}
    (start : fe.next expect ⟨at_, spelled ls ++ rest⟩ = .ok (ahead, cursor))
    (stop : fe.next (lastExpect expect ls) ⟨at_ + (spelled ls).length, rest⟩ =
      .ok (ahead', cursor')) :
    ∃ last', Parser.Run fe.next ⟨ahead, cursor, last⟩ (stepsFrom at_ ls)
      ⟨ahead', cursor', last'⟩ := by
  induction ls generalizing expect at_ ahead cursor last with
  | nil =>
    rw [show lastExpect expect [] = expect from rfl] at stop
    simp only [spelled_nil, List.nil_append, List.length_nil, Nat.add_zero] at start stop
    rw [start] at stop
    cases stop
    exact ⟨last, .nil _⟩
  | cons l ls ih =>
    rw [h.next at_] at start
    cases start
    have behind : (l.step at_).token.stop = at_ + l.text.length := by
      simp [Lexeme.step, Token.stop, Lexeme.text, Nat.add_assoc]
    have stop' : fe.next (lastExpect l.after ls)
        ⟨at_ + l.text.length + (spelled ls).length, rest⟩ = .ok (ahead', cursor') := by
      rw [← lastExpect_cons expect, ← stop]
      simp [Lexeme.text, Nat.add_assoc]
    obtain ⟨⟨ahead₁, cursor₁⟩, next⟩ := h.2.found stop'
    have more : ∃ last', Parser.Run fe.next ⟨ahead₁, cursor₁, some (l.step at_).token.range⟩
        (stepsFrom (at_ + l.text.length) ls) ⟨ahead', cursor', last'⟩ := ih h.2 next stop'
    obtain ⟨last', run⟩ := more
    refine ⟨last', .cons rfl ?_ run⟩
    rw [behind]
    exact next

/-- A run takes the tokens of a legible text, and behind them it finds what it stops at. -/
theorem Parser.Run.legible {s s' : Parser.State} {xs : List Parser.Step} {c : Cursor}
    (found : fe.next expect c = .ok (s.ahead, s.cursor)) (run : Run fe.next s xs s') :
    ∃ ls rest, Legible fe expect ls rest ∧ stepsFrom c.pos ls = xs ∧
      c.rest = spelled ls ++ rest ∧
      fe.next (lastExpect expect ls) ⟨c.pos + (spelled ls).length, rest⟩ =
        .ok (s'.ahead, s'.cursor) := by
  induction run generalizing expect c with
  | nil s => exact ⟨[], c.rest, trivial, rfl, rfl, found⟩
  | @cons s s' x xs ahead cursor taken next _ ih =>
    obtain ⟨token, after⟩ := x
    rw [taken] at found
    obtain ⟨gap, eq, start, stop, reads⟩ := next_eq_some.1 found
    obtain ⟨ls, rest, legible, steps, behind, stops⟩ := ih next
    have first : Lexeme.step c.pos ⟨gap, token.kind, token.chars, after⟩ = ⟨token, after⟩ := by
      simp only [Lexeme.step, ← start]
    have reach : c.pos + (gap ++ token.chars).length = s.cursor.pos := by
      rw [stop, Token.stop, start, List.length_append, Nat.add_assoc]
    refine ⟨⟨gap, token.kind, token.chars, after⟩ :: ls, rest, ⟨?_, legible⟩, ?_, ?_, ?_⟩
    · rw [← behind]
      exact reads
    · rw [stepsFrom, first, Lexeme.text, reach, steps]
    · rw [eq, behind, spelled_cons, List.append_assoc, List.append_assoc]
    · rw [lastExpect_cons, ← stops, ← reach, spelled_cons]
      simp only [List.length_append, Nat.add_assoc]

/-! ## Expressions -/

/-- Behind an expression no literal text is looked for. -/
theorem calm_of_endings {A : Expect} (h : A ∈ Parser.endings) : Parser.calm A = true := by
  have each : ∀ A ∈ Parser.endings, Parser.calm A = true := by decide
  exact each A h

/-- What is looked for behind the lexemes of an expression. -/
theorem Parser.Script.lastExpect {level : Level} {place : Place} {σ : Surface.Expr} {at_ : Nat}
    (h : Script level place σ (stepsFrom at_ ls)) :
    Wdl.lastExpect expect ls ∈ place.ends := by
  obtain ⟨y, last, after, -⟩ := h.endsExpr
  have same := congrArg List.getLast? (stepsFrom_map at_ ls)
  rw [List.getLast?_map, List.getLast?_map, last] at same
  cases found : ls.getLast? with
  | none =>
    rw [found] at same
    cases same
  | some l =>
    rw [found] at same
    have eq : y.after = l.after := congrArg Prod.snd (Option.some.inj same)
    rw [Wdl.lastExpect, found, Option.map_some, Option.getD_some, ← eq]
    exact after

/-- A parser that takes the tokens of a legible text, with nothing but layout behind them, parses
the text. -/
theorem Legible.whole {start : Expect} {p : Parser α} {x : α} {cs : List Char}
    (h : Legible fe start ls rest) (text : Parser.terminated cs = spelled ls ++ rest)
    (quiet : Parser.calm (lastExpect start ls) = true)
    (layout : layoutLength false rest = rest.length)
    (takes : ∀ s s', Parser.Run fe.next s (stepsFrom 0 ls) s' → s'.ahead = none →
      p s = .ok (x, s')) :
    Parser.whole fe.next start p cs = .ok x := by
  have stop : fe.next (lastExpect start ls) ⟨0 + (spelled ls).length, rest⟩ =
      .ok (none, ⟨0 + (spelled ls).length + rest.length, []⟩) :=
    next_eq_none.2 ⟨calm_literal? quiet _, layout, rfl⟩
  obtain ⟨⟨ahead, cursor⟩, first⟩ := h.found stop
  obtain ⟨last, run⟩ := @Legible.run _ _ _ _ h _ _ _ _ _ none first stop
  refine Parser.whole_eq_ok.2 ⟨ahead, cursor, _, ?_, takes _ _ run rfl, rfl⟩
  rw [text]
  exact first

/-- A text that is legible as the tokens of an expression is parsed as that expression. -/
theorem Legible.parse {σ : Surface.Expr} {cs : List Char} (h : Legible fe Expect.expr ls rest)
    (text : Parser.terminated cs = spelled ls ++ rest)
    (layout : layoutLength false rest = rest.length)
    (script : Parser.Script .expr .plain σ (stepsFrom 0 ls)) :
    Surface.Expr.parse fe.next cs = .ok σ :=
  have quiet := calm_of_endings (Parser.Place.ends_subset _ script.lastExpect)
  h.whole text quiet layout fun _ _ run ended =>
    Parser.expr_replays (forward_next fe) script run (Parser.settled_of_end ended)

/-- An expression is parsed if its surface form is, and can be built. -/
theorem parseExpr_eq_ok {rules : Rules} {source : SourceText} {σ : Surface.Expr} {e : Expr}
    (parsed : Surface.Expr.parse rules.frontEnd.next source.chars = .ok σ)
    (built : Build.expr rules σ = .ok e) : (parseExpr rules source).result = .ok e := by
  simp only [parseExpr, Parsed.ofSurface, parsed, built]
  rfl

/-- A text that is parsed as an expression is legible as the tokens that write it, and behind them
there is layout. -/
theorem parseExpr_legible {rules : Rules} {source : SourceText} {e : Expr}
    (parsed : (parseExpr rules source).result = .ok e) :
    ∃ σ ls rest, Legible rules.frontEnd Expect.expr ls rest ∧
      Parser.terminated source.chars = spelled ls ++ rest ∧
      Parser.Script .expr .plain σ (stepsFrom 0 ls) ∧ Build.expr rules σ = .ok e ∧
      layoutLength false rest = rest.length := by
  obtain ⟨σ, read, built⟩ := Parsed.ofSurface_eq_ok parsed
  obtain ⟨ahead, cursor, s, found, read, ended⟩ := Parser.whole_eq_ok.1 read
  obtain ⟨xs, run, script, -⟩ := Parser.expr_reads (forward_next _) _ s σ read
  obtain ⟨ls, rest, legible, rfl, text, stop⟩ := run.legible found
  rw [ended] at stop
  exact ⟨σ, ls, rest, legible, text, script, Builder.gives_check built, (next_eq_none.1 stop).2.1⟩

end Wdl
