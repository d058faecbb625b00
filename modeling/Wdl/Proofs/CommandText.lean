import Wdl.Proofs.ErrorSpans
import Wdl.Proofs.Frames

/-!
# Wdl.Proofs.CommandText -- the text of a command is kept as it is

Between its delimiters a command is literal text, but for its placeholders. Text that opens none,
and that does not end the command sooner, is one token whatever else it holds: line feeds, what
would be a remark elsewhere, single sigils and brackets. So the command is that text, without the
indentation that its lines share.

* `CommandStyle.Verbatim` is the condition on the text, for either style. In a heredoc the text must
  not end with a bracket, since the delimiter is the first three brackets in a row.
* `commandTextLength_verbatim` measures the token, and `FrontEnd.Reads.whole_text` says that nothing
  else is found.
* `Spells` relates the parts of a command to the text, and `Command.Keeps` says what is built of it.
* `Parser.CommandOrigin.keeps` is about any command of a document that is written so. `textLexemes`
  and what follows it, up to `Command.verbatim`, show that a task with such a command is parsed.
-/

namespace Wdl

open Scan

variable {fe : FrontEnd} {A : Expect} {cs rest : List Char} {style : CommandStyle}

/-! ## Text between delimiters

The scanner measures literal text character by character. Each lemma below is one step of that, and
the two lemmas on verbatim text are inductions over the steps. -/

/-- Nothing in the text opens a placeholder, and the delimiter behind it is the first one there. -/
def CommandStyle.Verbatim : CommandStyle → List Char → Prop
  | .braces, cs => '\x7d' ∉ cs ∧ ¬ ['~', '\x7b'] <:+: cs ∧ ¬ ['$', '\x7b'] <:+: cs
  | .heredoc, cs =>
    ¬ ['~', '\x7b'] <:+: cs ∧ ¬ ['>', '>', '>'] <:+: cs ∧ cs.getLast? ≠ some '>'

instance (style : CommandStyle) (cs : List Char) : Decidable (style.Verbatim cs) :=
  match style with
  | .braces => inferInstanceAs
    (Decidable ('\x7d' ∉ cs ∧ ¬ ['~', '\x7b'] <:+: cs ∧ ¬ ['$', '\x7b'] <:+: cs))
  | .heredoc => inferInstanceAs
    (Decidable (¬ ['~', '\x7b'] <:+: cs ∧ ¬ ['>', '>', '>'] <:+: cs ∧ cs.getLast? ≠ some '>'))

/-- What follows in a verbatim text is verbatim. -/
theorem CommandStyle.Verbatim.tail {c : Char} (h : style.Verbatim (c :: cs)) :
    style.Verbatim cs := by
  cases style with
  | braces =>
    obtain ⟨close, tilde, dollar⟩ := h
    exact ⟨fun mem => close (List.mem_cons_of_mem _ mem),
      fun found => tilde (List.infix_cons found), fun found => dollar (List.infix_cons found)⟩
  | heredoc =>
    obtain ⟨tilde, close, last⟩ := h
    refine ⟨fun found => tilde (List.infix_cons found), fun found => close (List.infix_cons found),
      fun found => last ?_⟩
    rw [List.getLast?_cons, found]
    rfl

/-- The second of two characters that are not next to each other does not follow the first. -/
theorem next_of_not_infix {a b e : Char} (free : ¬ [a, b] <:+: a :: cs) (other : e ≠ b) :
    ∃ d more, cs ++ e :: rest = d :: more ∧ d ≠ b := by
  cases cs with
  | nil => exact ⟨e, rest, rfl, other⟩
  | cons d cs =>
    refine ⟨d, _, rfl, ?_⟩
    rintro rfl
    exact free ⟨[], cs, rfl⟩

/-- A tilde that opens nothing is text. -/
theorem heredocTextLength_tilde {d : Char} (single : d ≠ '\x7b') :
    heredocTextLength ('~' :: d :: rest) = heredocTextLength (d :: rest) + 1 := by
  rw [heredocTextLength.eq_def]
  exact if_neg single

/-- A single bracket is text. -/
theorem heredocTextLength_bracket {d : Char} (single : d ≠ '>') :
    heredocTextLength ('>' :: d :: rest) = heredocTextLength (d :: rest) + 1 := by
  rw [heredocTextLength.eq_def]
  dsimp only
  rw [if_neg (by decide), if_pos rfl]
  split <;> simp_all

/-- Two brackets in a row are text. -/
theorem heredocTextLength_brackets {d : Char} (pair : d ≠ '>') :
    heredocTextLength ('>' :: '>' :: d :: rest) = heredocTextLength (d :: rest) + 2 := by
  rw [heredocTextLength.eq_def]
  exact if_neg pair

/-- Any other character of a heredoc is text. -/
theorem heredocTextLength_other {c : Char} (tilde : c ≠ '~') (bracket : c ≠ '>') :
    heredocTextLength (c :: rest) = heredocTextLength rest + 1 := by
  rw [heredocTextLength.eq_def]
  dsimp only
  rw [if_neg tilde, if_neg bracket]

/-- The text of a heredoc goes up to its delimiter. -/
theorem heredocTextLength_verbatim (rest : List Char) (h : CommandStyle.heredoc.Verbatim cs) :
    heredocTextLength (cs ++ '>' :: '>' :: '>' :: rest) = cs.length := by
  induction cs with
  | nil => simp [heredocTextLength.eq_def]
  | cons c cs ih =>
    have ih := ih h.tail
    obtain ⟨free, close, last⟩ := h
    rw [List.cons_append]
    by_cases tilde : c = '~'
    · subst tilde
      obtain ⟨d, more, eq, single⟩ := next_of_not_infix (e := '>') free (by decide)
      rw [eq, heredocTextLength_tilde single, ← eq, ih, List.length_cons]
    by_cases bracket : c = '>'
    · subst bracket
      -- one bracket or two, with something else behind them
      cases cs with
      | nil => exact absurd rfl last
      | cons d cs =>
        by_cases single : d = '>'
        · subst single
          cases cs with
          | nil => exact absurd rfl last
          | cons e cs =>
            have pair : e ≠ '>' := by
              rintro rfl
              exact close ⟨[], cs, rfl⟩
            rw [List.cons_append, List.cons_append, heredocTextLength_bracket pair] at ih
            rw [List.cons_append, List.cons_append, heredocTextLength_brackets pair]
            exact congrArg (· + 1) ih
        · rw [List.cons_append] at ih ⊢
          rw [heredocTextLength_bracket single, ih]
          rfl
    · rw [heredocTextLength_other tilde bracket, ih, List.length_cons]

/-- A sigil that opens nothing is text. -/
theorem bracesTextLength_sigil {c d : Char} (sigil : isSigil c = true) (single : d ≠ '\x7b') :
    bracesTextLength (c :: d :: rest) = bracesTextLength (d :: rest) + 1 := by
  have inside : c ≠ '\x7d' := by
    rintro rfl
    cases sigil
  rw [bracesTextLength.eq_def]
  dsimp only
  rw [if_neg inside, if_pos sigil, if_neg single]

/-- Any other character between braces is text. -/
theorem bracesTextLength_other {c : Char} (inside : c ≠ '\x7d') (other : ¬ isSigil c = true) :
    bracesTextLength (c :: rest) = bracesTextLength rest + 1 := by
  rw [bracesTextLength.eq_def]
  dsimp only
  rw [if_neg inside, if_neg other]

/-- The text between braces goes up to its delimiter. -/
theorem bracesTextLength_verbatim (rest : List Char) (h : CommandStyle.braces.Verbatim cs) :
    bracesTextLength (cs ++ '\x7d' :: rest) = cs.length := by
  induction cs with
  | nil => simp [bracesTextLength.eq_def]
  | cons c cs ih =>
    have ih := ih h.tail
    obtain ⟨close, tilde, dollar⟩ := h
    have inside : c ≠ '\x7d' := fun eq => close (eq ▸ List.mem_cons_self)
    rw [List.cons_append]
    by_cases sigil : isSigil c = true
    · have free : ¬ [c, '\x7b'] <:+: c :: cs := by
        rcases (by simpa [isSigil] using sigil : c = '~' ∨ c = '$') with rfl | rfl
        · exact tilde
        · exact dollar
      obtain ⟨d, more, eq, single⟩ := next_of_not_infix (e := '\x7d') free (by decide)
      rw [eq, bracesTextLength_sigil sigil single, ← eq, ih, List.length_cons]
    · rw [bracesTextLength_other inside sigil, ih, List.length_cons]

/-- The literal text of a command is all that is in front of its delimiter. -/
theorem commandTextLength_verbatim (rest : List Char) (h : style.Verbatim cs) :
    commandTextLength style (cs ++ ((Parser.commandClose style).spelling ++ rest)) = cs.length := by
  cases style with
  | braces => exact bracesTextLength_verbatim rest h
  | heredoc => exact heredocTextLength_verbatim rest h

/-! ## One token -/

/-- Inside a command, the literal text that is looked for is that of the command. -/
theorem literal?_inCommand (style : CommandStyle) (cs : List Char) :
    literal? (Expect.inCommand style) cs =
      (positive? (commandTextLength style cs)).map (Terminal.commandText style, ·) := by
  cases style
  · cases h : positive? (commandTextLength .braces cs) <;>
      simp [literal?, List.findSome?, class?, Expect.inCommand, Expect.afterCommandText, h]
  · cases h : positive? (commandTextLength .heredoc cs) <;>
      simp [literal?, List.findSome?, class?, Expect.inCommand, Expect.afterCommandText, h]

/-- Behind the text of a command, no literal text is looked for. -/
theorem calm_afterCommandText (style : CommandStyle) :
    Parser.calm (Expect.afterCommandText style) = true := by
  cases style <;> rfl

/-- The delimiter behind a command is found in it, wherever no literal text is in front of it. -/
theorem plain?_commandClose (hA : A = Expect.inCommand style ∨ A = Expect.afterCommandText style) :
    plain? fe A ((Parser.commandClose style).spelling ++ rest) =
      some (.symbol (Parser.commandClose style), (Parser.commandClose style).spelling.length) := by
  rcases hA with rfl | rfl <;> cases style <;> cases rest <;> rfl

/-- No literal text stands at the delimiter. -/
theorem literal?_commandClose (hA : A = Expect.inCommand style ∨ A = Expect.afterCommandText style)
    (rest : List Char) : literal? A ((Parser.commandClose style).spelling ++ rest) = none := by
  rcases hA with rfl | rfl
  · have empty : style.Verbatim [] := by cases style <;> decide
    have none := commandTextLength_verbatim rest empty
    rw [List.nil_append] at none
    rw [literal?_inCommand, none]
    rfl
  · exact calm_literal? (calm_afterCommandText style) _

/-- No layout stands at the delimiter that closes a command. -/
theorem layoutLength_commandClose (style : CommandStyle) (rest : List Char) :
    layoutLength false ((Parser.commandClose style).spelling ++ rest) = 0 := by
  cases style
  · exact layoutLength_solid (c := '\x7d') rfl rest
  · exact layoutLength_solid (c := '>') rfl _

/-- No layout stands at the delimiter that opens a command. -/
theorem layoutLength_commandOpen (style : CommandStyle) (rest : List Char) :
    layoutLength false ((Parser.commandOpen style).spelling ++ rest) = 0 := by
  cases style
  · exact layoutLength_solid (c := '\x7b') rfl rest
  · exact layoutLength_solid (c := '<') rfl _

/-- The delimiter is found where it stands. -/
theorem reads_commandClose (hA : A = Expect.inCommand style ∨ A = Expect.afterCommandText style)
    (rest : List Char) : fe.Reads A [] (.symbol (Parser.commandClose style))
      (Parser.commandClose style).spelling rest :=
  .inr ⟨literal?_commandClose hA rest, layoutLength_commandClose style rest,
    plain?_commandClose hA⟩

/-- What is found at the delimiter is the delimiter. -/
theorem FrontEnd.Reads.commandClose {gap chars more : List Char} {kind : Terminal}
    (h : fe.Reads A gap kind chars more)
    (hA : A = Expect.inCommand style ∨ A = Expect.afterCommandText style)
    (text : gap ++ (chars ++ more) = (Parser.commandClose style).spelling ++ rest) :
    kind = .symbol (Parser.commandClose style) := by
  rcases h with ⟨rfl, found⟩ | ⟨-, layout, found⟩
  · rw [List.nil_append] at text
    rw [text, literal?_commandClose hA] at found
    cases found
  · rw [text, layoutLength_commandClose] at layout
    obtain rfl := List.eq_nil_of_length_eq_zero layout.symm
    rw [List.nil_append] at text
    rw [text, plain?_commandClose hA] at found
    exact (congrArg Prod.fst (Option.some.inj found)).symm

/-- Text is one token of literal text if nothing in it ends it sooner. -/
theorem reads_verbatim (h : style.Verbatim cs) (ne : cs ≠ []) (rest : List Char) :
    fe.Reads (Expect.inCommand style) [] (.commandText style) cs
      ((Parser.commandClose style).spelling ++ rest) := by
  refine .inl ⟨rfl, ?_⟩
  rw [literal?_inCommand, commandTextLength_verbatim rest h,
    positive?_eq_some.2 ⟨rfl, List.length_pos_of_ne_nil ne⟩]
  rfl

/-- Nothing else than that token is found in the text. -/
theorem FrontEnd.Reads.whole_text {gap chars more : List Char} {kind : Terminal}
    (h : fe.Reads (Expect.inCommand style) gap kind chars more) (plain : style.Verbatim cs)
    (ne : cs ≠ [])
    (text : gap ++ (chars ++ more) = cs ++ ((Parser.commandClose style).spelling ++ rest)) :
    gap = [] ∧ kind = .commandText style ∧ chars = cs := by
  have there : fe.Reads (Expect.inCommand style) [] (.commandText style) cs
      ((Parser.commandClose style).spelling ++ rest) := reads_verbatim plain ne rest
  have found := (there.literal rfl).2
  rw [← text] at found
  rcases h with ⟨rfl, here⟩ | ⟨none, -, -⟩
  · rw [List.nil_append] at found text
    rw [found] at here
    obtain ⟨same, length⟩ := Prod.mk.inj (Option.some.inj here)
    exact ⟨rfl, same.symm, (List.append_inj text length.symm).1⟩
  · rw [none] at found
    cases found

/-! ## The parts of a command

A command that was parsed has some parts. They are compared with the text token by token: the first
token found is the whole text, so the first part is that token, and behind it there is only the
delimiter. -/

/-- The parts of a command that is only text. -/
def Spells (parts : List Surface.Part) (cs : List Char) : Prop :=
  cs = [] ∧ parts = [] ∨ ∃ r, parts = [.text r cs]

section Parts

variable {parts : List Parser.PartPiece} {ls : List Lexeme} {a : Nat} {close : Token}
  {after : Expect} {more : List Char}

/-- No part starts at the delimiter. -/
theorem parts_eq_nil (hA : A = Expect.inCommand style ∨ A = Expect.afterCommandText style)
    (fits : ∀ q ∈ parts, q.Fits (.command style)) (legible : Legible fe A ls more)
    (steps : stepsFrom a ls =
      parts.flatMap (Parser.PartPiece.steps (.command style)) ++ [⟨close, after⟩])
    (text : spelled ls ++ more = (Parser.commandClose style).spelling ++ rest) : parts = [] := by
  cases parts with
  | nil => rfl
  | cons q ps =>
    obtain ⟨x, xs, first, other⟩ : ∃ x xs, q.steps (.command style) = x :: xs ∧
        x.token.kind ≠ .symbol (Parser.commandClose style) := by
      have here := fits q List.mem_cons_self
      cases q with
      | text t =>
        have kind : t.kind = .commandText style := here
        exact ⟨_, _, rfl, by simp [kind]⟩
      | hole opener close h =>
        have kind : opener.kind = Parser.commandHole style := here.1
        exact ⟨_, _, rfl, by cases style <;> simp [kind, Parser.commandHole, Parser.commandClose]⟩
    rw [List.flatMap_cons, first] at steps
    cases ls with
    | nil => cases steps
    | cons l ls =>
      obtain ⟨step, -⟩ := List.cons_eq_cons.1 steps
      have kind : l.kind = x.token.kind := congrArg (·.token.kind) step
      rw [spelled_cons, List.append_assoc, List.append_assoc] at text
      exact absurd (kind.symm.trans (legible.1.commandClose hA text)) other

/-- The parts that are read between the delimiters are only text if it is verbatim. -/
theorem spells_of_verbatim (plain : style.Verbatim cs)
    (fits : ∀ q ∈ parts, q.Fits (.command style))
    (legible : Legible fe (Expect.inCommand style) ls more)
    (steps : stepsFrom a ls =
      parts.flatMap (Parser.PartPiece.steps (.command style)) ++ [⟨close, after⟩])
    (closed : close.kind = .symbol (Parser.commandClose style))
    (text : spelled ls ++ more = cs ++ ((Parser.commandClose style).spelling ++ rest)) :
    Spells (parts.map Parser.PartPiece.part) cs := by
  by_cases empty : cs = []
  · subst empty
    exact .inl ⟨rfl, by rw [parts_eq_nil (.inl rfl) fits legible steps text, List.map_nil]⟩
  cases ls with
  | nil => simp [stepsFrom] at steps
  | cons l ls =>
    rw [spelled_cons, List.append_assoc, List.append_assoc] at text
    obtain ⟨gap, kind, chars⟩ := legible.1.whole_text plain empty text
    cases parts with
    -- no part: the first token would be the delimiter, but it is the text
    | nil =>
      obtain ⟨step, -⟩ := List.cons_eq_cons.1 steps
      have same : l.kind = close.kind := congrArg (·.token.kind) step
      simp [kind, closed] at same
    | cons q ps =>
      obtain ⟨here, others⟩ := List.forall_mem_cons.1 fits
      cases q with
      | hole opener close' h =>
        obtain ⟨step, -⟩ := List.cons_eq_cons.1 steps
        have same : l.kind = opener.kind := congrArg (·.token.kind) step
        rw [kind, here.1] at same
        cases style <;> cases same
      | text t =>
        obtain ⟨step, steps⟩ := List.cons_eq_cons.1 steps
        have spelled : t.chars = cs := (congrArg (·.token.chars) step).symm.trans chars
        have after : l.after = Expect.afterCommandText style := congrArg (·.after) step
        have legible := legible.2
        rw [after] at legible
        rw [gap, chars, List.nil_append] at text
        have alone : ps = [] :=
          parts_eq_nil (.inr rfl) others legible steps (List.append_cancel_left text)
        rw [alone, ← spelled]
        exact .inr ⟨t.range, rfl⟩

end Parts

/-! ## What is built -/

/-- The command is of the style and holds the text, without the indentation that its lines share. -/
structure Command.Keeps (C : Command) (style : CommandStyle) (s : String) : Prop where
  style : C.heredoc = (style == .heredoc)
  parts : C.parts = (Indentation.strip [.text s.toList]).pieces.map Build.partOf

variable {rules : Rules}

/-- No text is stripped like an empty one. -/
theorem Spells.strip {parts : List Surface.Part} (h : Spells parts cs) :
    ∃ raw, Build.rawParts rules parts = .ok raw ∧
      Indentation.strip (raw.map Build.pieceOf) = Indentation.strip [.text cs] := by
  rcases h with ⟨rfl, rfl⟩ | ⟨r, rfl⟩
  · exact ⟨[], rfl, rfl⟩
  · exact ⟨[.text r cs], rfl, rfl⟩

/-- A command that is only text is built, whatever is warned of. -/
theorem Build.command_returns (rules : Rules) {c : Surface.Command} {s : String}
    (h : Spells c.parts s.toList) :
    ∃ C : Command, (Build.command rules c).Returns C ∧ C.Keeps c.style s := by
  obtain ⟨raw, hraw, stripped⟩ := @Spells.strip _ rules _ h
  let C : Command := ⟨c.range, (Indentation.strip (raw.map Build.pieceOf)).pieces.map Build.partOf,
    c.style == .heredoc⟩
  have done : (pure C : Builder Command).Returns C := Builder.returns_pure C
  refine ⟨C, Builder.returns_bind (Builder.returns_check hraw) ?_, rfl,
    congrArg (fun x => x.pieces.map Build.partOf) stripped⟩
  dsimp only
  split
  · exact Builder.returns_bind (Builder.returns_warn _) done
  · exact done

/-- A command that is only text keeps it. -/
theorem Build.command_keeps {c : Surface.Command} {s : String} {C : Command}
    (h : Spells c.parts s.toList) (built : (Build.command rules c).Gives C) :
    C.Keeps c.style s := by
  obtain ⟨raw, hraw, rfl⟩ := Parser.command_gives built
  obtain ⟨raw', hraw', stripped⟩ := @Spells.strip _ rules _ h
  rw [hraw] at hraw'
  cases hraw'
  exact ⟨rfl, congrArg (fun x => x.pieces.map Build.partOf) stripped⟩

/-! ## A command in a text

What is given of a command in a text is only the piece that it spans. That is compared with the
tokens that were found there: first the keyword, then the gap up to the delimiter, then the rest. -/

/-- A command with a text between its delimiters, as it is written. -/
def CommandStyle.written (style : CommandStyle) (gap s : String) : String :=
  "command" ++ gap ++ String.ofList (Parser.commandOpen style).spelling ++ s ++
    String.ofList (Parser.commandClose style).spelling

/-- A command is written as its word, a gap, and its text between delimiters. -/
theorem CommandStyle.toList_written (style : CommandStyle) (gap s : String) :
    (style.written gap s).toList = Keyword.kwCommand.spelling ++ (gap.toList ++
      ((Parser.commandOpen style).spelling ++
        (s.toList ++ (Parser.commandClose style).spelling))) := by
  simp only [CommandStyle.written, String.toList_append, String.toList_ofList, List.append_assoc]
  rfl

/-- A command of a text that is written with a verbatim text between its delimiters keeps it. -/
theorem Parser.CommandOrigin.keeps {text : List Char} {C : Command} {gap s : String}
    (h : CommandOrigin rules.frontEnd rules text C) (plain : style.Verbatim s.toList)
    (layout : Gap false gap.toList false)
    (cut : (style.written gap s).toList =
      (text.drop C.range.start).take (C.range.stop - C.range.start)) : C.Keeps style s := by
  cases h with
  | @whole p C t u sound run fits built =>
  obtain ⟨A, c, on, found⟩ := sound.found
  obtain ⟨ls, rest, legible, steps, behind, -⟩ := run.legible found
  obtain ⟨style', start, opening, parts, close⟩ := p
  obtain ⟨started, opened, each, closed⟩ := fits
  simp only at started opened each closed
  rcases ls with _ | ⟨l, _ | ⟨m, ls⟩⟩
  · cases steps
  · cases (List.cons_eq_cons.1 steps).2
  -- the command spans its tokens, from its keyword to its closing delimiter
  have range : C.range = Parser.spanOf (stepsFrom c.pos (l :: m :: ls)) := by
    obtain ⟨raw, -, rfl⟩ := Parser.command_gives built
    rw [steps]
    exact (Parser.spanOf_enclosed ⟨start, Expect.commandOpen⟩ ⟨close, Expect.afterCommand⟩
      (⟨opening, Expect.inCommand style'⟩ ::
        parts.flatMap (PartPiece.steps (.command style')))).symm
  obtain ⟨first, more⟩ := List.cons_eq_cons.1 steps
  obtain ⟨second, more⟩ := List.cons_eq_cons.1 more
  have keyword : l.chars = Keyword.kwCommand.spelling := by
    have kind : l.kind = .keyword .kwCommand := (congrArg (·.token.kind) first).trans started
    exact FrontEnd.Reads.keyword (kind ▸ legible.1)
  have kind : m.kind = .symbol (Parser.commandOpen style') :=
    (congrArg (·.token.kind) second).trans opened
  have after : m.after = Expect.inCommand style' := congrArg (·.after) second
  obtain ⟨-, opening, inner⟩ := legible
  rw [kind] at opening
  rw [after] at inner
  have bracket := opening.symbol
  -- the text behind the keyword, as it is given and as it is read
  have same : gap.toList ++ ((Parser.commandOpen style).spelling ++
      (s.toList ++ (Parser.commandClose style).spelling)) =
        m.gap ++ ((Parser.commandOpen style').spelling ++ spelled ls) := by
    have size : (spelled (l :: m :: ls)).length - l.gap.length =
        (l.chars ++ spelled (m :: ls)).length := by simp
    have there : text.drop c.pos = l.gap ++ ((l.chars ++ spelled (m :: ls)) ++ rest) := by
      rw [← on.eq, behind]
      simp
    rw [range, spanOf_stepsFrom, Nat.add_sub_add_left, size, take_drop_eq there, keyword,
      style.toList_written, spelled_cons, bracket] at cut
    exact List.append_cancel_left cut
  -- both stretches of layout end where the delimiter starts
  have gaps : gap.toList.length = m.gap.length := by
    obtain ⟨-, passed, -⟩ := opening.plain rfl
    have all := congrArg (· ++ rest) same
    simp only [List.append_assoc] at all
    rw [bracket, ← all, layout.layoutLength_append, layoutLength_commandOpen] at passed
    exact (Nat.zero_add _).symm.trans passed
  obtain ⟨-, same⟩ := List.append_inj same gaps
  -- the delimiters start differently, so the style that was read is the one that was written
  obtain rfl : style = style' := by
    have heads := congrArg List.head? same
    cases style <;> cases style' <;> first | rfl | cases heads
  have text' : spelled ls ++ rest =
      s.toList ++ ((Parser.commandClose style).spelling ++ rest) := by
    rw [← List.append_cancel_left same, List.append_assoc]
  exact Build.command_keeps (spells_of_verbatim plain each inner more closed text') built

/-! ## A task with a command

So far a command was given. That one is parsed at all is shown for a document made of a single task
with nothing but the command, `TaskFrame.text`; its other lexemes are the same whatever the command
holds. -/

/-- The token of a text between the delimiters of a command, if there is any text. -/
def textLexemes (style : CommandStyle) : List Char → List Lexeme
  | [] => []
  | cs => [⟨[], .commandText style, cs, Expect.afterCommandText style⟩]

/-- The token of a text spells it. -/
theorem spelled_textLexemes (style : CommandStyle) (cs : List Char) :
    spelled (textLexemes style cs) = cs := by
  cases cs <;> simp [textLexemes]

/-- The token of a text is the only part of a command. -/
theorem textLexemes_steps (style : CommandStyle) (cs : List Char) (a : Nat) :
    ∃ parts : List Parser.PartPiece, (∀ q ∈ parts, q.Fits (.command style) ∧ q.inner = []) ∧
      stepsFrom a (textLexemes style cs) =
        parts.flatMap (Parser.PartPiece.steps (.command style)) ∧
      Spells (parts.map Parser.PartPiece.part) cs := by
  cases cs with
  | nil => exact ⟨[], by simp, rfl, .inl ⟨rfl, rfl⟩⟩
  | cons c cs =>
    refine ⟨[.text ⟨.commandText style, c :: cs, a⟩], ?_, rfl, .inr ⟨_, rfl⟩⟩
    rintro q (_ | ⟨_, ⟨⟩⟩)
    exact ⟨rfl, rfl⟩

/-- Verbatim text is found between the delimiters. -/
theorem textLexemes_legible (plain : style.Verbatim cs) {ms : List Lexeme} {after : Expect}
    (legible : Legible fe after ms rest) :
    Legible fe (Expect.inCommand style)
      (textLexemes style cs ++ .symbol [] (Parser.commandClose style) after :: ms) rest := by
  cases cs with
  | nil => exact ⟨reads_commandClose (.inl rfl) _, legible⟩
  | cons c cs =>
    refine ⟨?_, reads_commandClose (.inr rfl) _, legible⟩
    have found : fe.Reads (Expect.inCommand style) [] (.commandText style) (c :: cs)
        ((Parser.commandClose style).spelling ++ (spelled ms ++ rest)) :=
      reads_verbatim plain (by simp) _
    simpa [Lexeme.symbol] using found

/-- A keyword ends where layout or the delimiter of a command starts. -/
theorem Scan.Gap.parted_commandOpen {gap : List Char} (h : Gap false gap false)
    (style : CommandStyle) (rest : List Char) :
    Parted (gap ++ ((Parser.commandOpen style).spelling ++ rest)) := by
  cases h with
  | nil =>
    cases style <;> simp [Parted, Parser.commandOpen, Symbol.spelling, isNameChar, isLetter,
      isAsciiDigit]
  | windows => simp [Parted, isNameChar, isLetter, isAsciiDigit]
  | newline => simp [Parted, isNameChar, isLetter, isAsciiDigit]
  | hash => simp [Parted, isNameChar, isLetter, isAsciiDigit]
  | blank blank => rcases blank with rfl | rfl <;> simp [Parted, isNameChar, isLetter, isAsciiDigit]

/-- The names in a document of a task that is only a command. -/
structure TaskFrame where
  version : String
  name : String

namespace TaskFrame

/-- The document, with a command. -/
def text (f : TaskFrame) (command : String) : String :=
  "version " ++ f.version ++ "\ntask " ++ f.name ++ " \x7b\n" ++ command ++ "\n\x7d\n"

/-- The version is supported, and the name may be given. -/
structure Fits (rules : Rules) (f : TaskFrame) : Prop where
  version : f.version ∈ Build.supportedVersions
  name : IsWord f.name.toList ∧ f.name ∉ rules.reserved

variable {f : TaskFrame} {gap : List Char}

/-- The lexemes of the task. -/
def lexemes (f : TaskFrame) (style : CommandStyle) (gap cs : List Char) : List Lexeme :=
  elementLexemes .kwTask f.name Expect.taskBody ++
    .keyword ['\n'] .kwCommand Expect.commandOpen ::
    .symbol gap (Parser.commandOpen style) (Expect.inCommand style) ::
      (textLexemes style cs ++ .symbol [] (Parser.commandClose style) Expect.afterCommand ::
        [.symbol ['\n'] .braceClose Expect.elements])

/-- The text of the document is spelled by the lexemes of the version and of the task. -/
theorem chars_eq (f : TaskFrame) (style : CommandStyle) (gap s : String) :
    (f.text (style.written gap s)).toList = spelled (versionLexemes f.version) ++
      (spelled (f.lexemes style gap.toList s.toList) ++ ['\n']) := by
  simp only [text, lexemes, elementLexemes, String.toList_append, style.toList_written,
    spelled_versionLexemes, spelled_cons, spelled_append, spelled_textLexemes, spelled_nil,
    Lexeme.keyword, Lexeme.name, Lexeme.symbol, List.append_assoc]
  rfl

/-- The lexemes of the task are found in front of the end of the text. -/
theorem lexemes_legible (fits : f.Fits rules) (plain : style.Verbatim cs)
    (layout : Gap false gap false) :
    Legible fe Expect.elements (f.lexemes style gap cs) ['\n'] := by
  have keyword : ∀ rest, fe.Reads Expect.taskBody ['\n'] (.keyword .kwCommand)
      Keyword.kwCommand.spelling (gap ++ ((Parser.commandOpen style).spelling ++ rest)) := by
    intro rest
    exact reads_keyword (by decide) (by decide) (.newline (.nil false)) (by decide)
      (layout.parted_commandOpen style rest)
  have opening : ∀ rest, fe.Reads Expect.commandOpen gap (.symbol (Parser.commandOpen style))
      (Parser.commandOpen style).spelling rest := by
    intro rest
    refine reads_symbol (by decide) layout ?_ (clear_of_unrivalled ?_) ?_ ?_ <;>
      cases style <;> first | decide | simp [Parser.commandOpen]
  have close : Legible fe Expect.afterCommand [.symbol ['\n'] .braceClose Expect.elements] ['\n'] :=
    ⟨reads_braceClose (by decide) (by decide), trivial⟩
  refine legible_append.2 ⟨elementLexemes_legible (by decide) fits.name.1 _, ?_, opening _,
    textLexemes_legible plain close⟩
  rw [spelled_cons, List.append_assoc, List.append_assoc]
  exact keyword _

/-- The lexemes write a task with the command. -/
theorem lexemes_steps (f : TaskFrame) (style : CommandStyle) (gap cs : List Char) (at_ : Nat) :
    ∃ (r : Range) (w : Surface.Word) (c : Surface.Command), w.text = f.name ∧ c.style = style ∧
      Spells c.parts cs ∧
      Parser.ElementSteps (.task ⟨r, w, [], c, []⟩) (stepsFrom at_ (f.lexemes style gap cs)) := by
  simp only [lexemes, elementLexemes, List.cons_append, List.nil_append]
  rw [stepsFrom, stepsFrom, stepsFrom, stepsFrom, stepsFrom, stepsFrom_append, stepsFrom, stepsFrom,
    stepsFrom]
  -- where each token stands does not matter, so the positions are named and forgotten
  generalize at_ + _ = a
  generalize a + _ = b
  generalize b + _ = c
  generalize c + _ = d
  generalize d + _ = e
  generalize e + (spelled _).length = g
  obtain ⟨parts, fits, steps, spells⟩ := textLexemes_steps style cs e
  let command : Parser.CommandPiece := ⟨style,
    ((Lexeme.keyword ['\n'] .kwCommand Expect.commandOpen).step c).token,
    ((Lexeme.symbol gap (Parser.commandOpen style) (Expect.inCommand style)).step d).token, parts,
    ((Lexeme.symbol [] (Parser.commandClose style) Expect.afterCommand).step g).token⟩
  have element := Parser.ElementSteps.task
    ((Lexeme.keyword ['\n'] .kwTask Expect.aName).step at_).token
    ((Lexeme.name space f.name Expect.aBrace).step a).token
    ((Lexeme.symbol space .braceOpen Expect.taskBody).step b).token
    ((Lexeme.symbol ['\n'] .braceClose Expect.elements).step
      (g + (Lexeme.symbol [] (Parser.commandClose style) Expect.afterCommand).text.length)).token
    command rfl rfl rfl rfl ⟨rfl, rfl, fun q hq => (fits q hq).1, rfl⟩
    (fun q hq x hx => by simp [(fits q hq).2] at hx)
  simp only [Parser.CommandPiece.steps, List.cons_append, List.append_assoc,
    List.nil_append] at element
  rw [steps]
  exact ⟨_, _, command.command, String.ofList_toList, rfl, spells, element⟩

/-- The task is built with a command that keeps the text. -/
theorem parses (fits : f.Fits rules) {s gap : String} (plain : style.Verbatim s.toList)
    (layout : Gap false gap.toList false) (uri abspath : String) :
    ∃ d T, (parseDocument rules
        (.ofString (f.text (style.written gap s)) uri abspath)).result = .ok d ∧
      d.body = [.task T] ∧ T.name = f.name ∧ T.command.Keeps style s := by
  obtain ⟨r, w, c, name, rfl, spells, steps⟩ := f.lexemes_steps style gap.toList s.toList
    (spelled (versionLexemes f.version)).length
  obtain ⟨C, command, keeps⟩ := Build.command_returns rules spells
  -- the command is built, the name passes its check, and there are no sections
  have allowed : Build.checkName rules w = .ok () :=
    if_neg (by simpa [name] using fits.name.2)
  obtain ⟨T, assembled, named, holds⟩ : ∃ T, Build.assembleTask r w.text ([] ++ []) C = .ok T ∧
      T.name = w.text ∧ T.command = C := ⟨_, rfl, rfl, rfl⟩
  have built : (Build.element rules (.task ⟨r, w, [], c, []⟩)).Returns (.element (.task T)) := by
    have none : (Build.each (Build.taskItem rules) []).Returns [] := Builder.returns_pure []
    have task : (Build.task rules ⟨r, w, [], c, []⟩).Returns T :=
      Builder.returns_bind none (Builder.returns_bind command (Builder.returns_bind none
        (Builder.returns_bind (Builder.returns_check allowed) (Builder.returns_check assembled))))
    exact Builder.returns_bind task (Builder.returns_pure _)
  have ends : lastExpect Expect.elements (f.lexemes c.style gap.toList s.toList) =
      Expect.elements := by
    simp only [lexemes, lastExpect_cons, lastExpect_append]
    rfl
  have text : (SourceText.ofString (f.text (c.style.written gap s)) uri abspath).chars =
      spelled (versionLexemes f.version) ++
        (spelled (f.lexemes c.style gap.toList s.toList) ++ ['\n']) := f.chars_eq c.style gap s
  obtain ⟨d, result, body⟩ := parseDocument_around fits.version text rfl
    (lexemes_legible fits plain layout) ends steps built
  exact ⟨d, T, result, body, named.trans name, holds ▸ keeps⟩

end TaskFrame

/-- A text that opens no placeholder and does not end the command sooner is kept as it is between
the delimiters of a command: a task is parsed whose command is written so, and every command of a
parsed text that is written so keeps the text. -/
theorem Command.verbatim (rules : Rules) (style : CommandStyle) (s gap : String)
    (plain : style.Verbatim s.toList) (layout : Gap false gap.toList false) :
    (∀ f : TaskFrame, f.Fits rules → ∀ uri abspath, ∃ d T,
      (parseDocument rules (.ofString (f.text (style.written gap s)) uri abspath)).result = .ok d ∧
        d.body = [.task T] ∧ T.name = f.name ∧ T.command.Keeps style s) ∧
      ∀ (source : SourceText) (C : Command), (Node.command C).Parsed rules source →
        source.piece (source.span C.range) = style.written gap s → C.Keeps style s := by
  refine ⟨fun f fits => TaskFrame.parses fits plain layout, fun source C parsed written => ?_⟩
  obtain ⟨sited, inside⟩ := parsed.sited
  have origin : Parser.CommandOrigin rules.frontEnd rules (Parser.terminated source.chars) C :=
    sited.here.origin
  have ordered : C.range.start ≤ C.range.stop := sited.here.placed.ordered
  refine origin.keeps plain layout ?_
  rw [← written, source.piece_span ordered, String.toList_ofList]
  exact (terminated_cut inside).symm

/-- What would be a remark elsewhere, sigils, brackets and braces, between triple brackets. -/
theorem Command.verbatim_remark :
    ∃ d T, (parseDocument ⟨.flat, reservedWords, .none⟩ (.ofString ((TaskFrame.mk "1.1" "t").text
        (CommandStyle.heredoc.written " " "\n  # $x > ~y >> \x7d\n    end\\\n")) "" "")).result =
          .ok d ∧
      d.body = [.task T] ∧ T.command.heredoc = true ∧
      T.command.parts = [.text (.ofString "# $x > ~y >> \x7d\n  end\\")] := by
  have fits : (TaskFrame.mk "1.1" "t").Fits ⟨.flat, reservedWords, .none⟩ := ⟨by decide, by decide⟩
  have plain : CommandStyle.heredoc.Verbatim "\n  # $x > ~y >> \x7d\n    end\\\n".toList := by
    decide
  have stripped : (Indentation.strip [(.text "\n  # $x > ~y >> \x7d\n    end\\\n".toList :
      Piece Placeholder)]).pieces = [.text "# $x > ~y >> \x7d\n  end\\".toList] := rfl
  obtain ⟨d, T, result, body, -, keeps⟩ :=
    (Command.verbatim ⟨.flat, reservedWords, .none⟩ .heredoc _ " " plain .space).1 _ fits "" ""
  refine ⟨d, T, result, body, keeps.style, ?_⟩
  rw [keeps.parts, stripped, List.map_singleton, Build.partOf, Text.ofString]

end Wdl
