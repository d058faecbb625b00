import Wdl.Proofs.Quotations
import Wdl.Proofs.Respacing

/-!
# Wdl.Proofs.Passages -- an expression on lines of its own is read in any text

A text that is parsed as an expression is read in the same way where more lines follow: its tokens
are found there, and then there is only layout up to the end of the line. So it can be a passage of
a longer text, with the same tokens, moved.
-/

namespace Wdl

open Scan
open Wdl.Parser (Script Step calm lone isLiteral)

variable {fe : FrontEnd} {A : Expect} {ls : List Lexeme} {g : List Char} {rules : Rules}

/-! ## More lines -/

/-- A text that ends with a line feed is legible in front of more lines. -/
theorem Legible.lines (h : Legible fe A ls (g ++ ['\n'])) (quiet : calm A = true)
    (alone : lone A = true) (tame : ∀ l ∈ ls, (l.step 0).Tame)
    (closed : ∀ l ∈ ls, (l.step 0).Closed)
    (last : ∀ l, ls.getLast? = some l → isLiteral l.kind = false) (more : List Char) :
    Legible fe A ls (g ++ '\n' :: more) := by
  refine h.before (.inl quiet) tame last fun B looked l hl cs found => ?_
  have loneB : lone B = true := by
    rcases List.mem_cons.1 looked with rfl | looked
    · exact alone
    · obtain ⟨m, hm, rfl⟩ := List.mem_map.1 looked
      exact (tame m hm).lone
  have split : ∀ cs', l.chars ++ (cs ++ (g ++ cs')) = l.chars ++ (cs ++ g) ++ cs' := by simp
  rw [split] at found ⊢
  refine plain?_line loneB found fun kind => ?_
  -- a text in single quotes is found up to its own mark
  have found' : quotedLength? .single (l.chars ++ (cs ++ (g ++ ['\n']))) = some l.chars.length := by
    rw [split]
    exact quotedLength?_of_plain? (found.trans (by rw [show l.kind = _ from kind]))
  obtain ⟨raw, chars⟩ := marked_of_quotedLength? found'
  have free : Escape.guardsNext false raw = false := by
    have here := closed l hl .single kind
    change Escape.guardsNext false (l.chars.drop 1).dropLast = false at here
    rwa [chars, List.drop_one, List.tail_cons, List.dropLast_concat] at here
  rw [← split]
  rw [chars] at found' ⊢
  simp only [List.cons_append, List.append_assoc, List.length_cons, List.length_append,
    List.nil_append] at found' ⊢
  exact quotedLength?_closed free found' _

/-! ## Passages -/

/-- The tokens that write the expression of a text, and the layout behind them. They are found in
every text that goes on behind a line feed. -/
structure Passage (rules : Rules) (cs : List Char) (e : Expr) where
  surface : Surface.Expr
  lexemes : List Lexeme
  gap : List Char
  text : Parser.terminated cs = spelled lexemes ++ (gap ++ ['\n'])
  layout : Gap false (gap ++ ['\n']) false
  script : Script .expr .plain surface (stepsFrom 0 lexemes)
  built : Build.expr rules surface = .ok e
  legible : ∀ more, Legible rules.frontEnd Expect.expr lexemes (gap ++ '\n' :: more)

/-- Behind a line feed, no comment is open. -/
theorem Scan.Gap.eq_false {b b' : Bool} {g : List Char} (h : Gap b g b')
    (last : g.getLast? = some '\n') : b' = false := by
  induction h with
  | nil => cases last
  | @windows b b' g more ih =>
    cases g with
    | nil => cases more; rfl
    | cons c g => exact ih last
  | @newline b b' g more ih =>
    cases g with
    | nil => cases more; rfl
    | cons c g => exact ih last
  | @remark b' c g _ newline _ ih =>
    cases g with
    | nil => exact absurd (Option.some.inj last) newline
    | cons d g => exact ih last
  | @hash b' g _ ih =>
    cases g with
    | nil => cases last
    | cons d g => exact ih last
  | @blank b' c g blank _ ih =>
    cases g with
    | nil => rcases blank with rfl | rfl <;> cases last
    | cons d g => exact ih last

theorem getLast?_terminated (cs : List Char) : (Parser.terminated cs).getLast? = some '\n' := by
  unfold Parser.terminated
  split
  · assumption
  · exact List.getLast?_concat

theorem terminated_append (xs : List Char) {cs : List Char} (ne : cs ≠ []) :
    Parser.terminated (xs ++ cs) = xs ++ Parser.terminated cs := by
  unfold Parser.terminated
  rw [List.getLast?_append_of_ne_nil _ ne]
  split
  · rfl
  · exact List.append_assoc ..

/-- A text that is parsed as an expression is a passage of longer texts. -/
theorem parseExpr_passage {source : SourceText} {e : Expr}
    (parsed : (parseExpr rules source).result = .ok e) :
    Nonempty (Passage rules source.chars e) := by
  obtain ⟨σ, ls, rest, legible, text, script, built, layout⟩ := parseExpr_legible parsed
  have last := script.last_plain
  -- the tokens do not end with a line feed, so there is one in the layout behind them
  have ended : rest.getLast? = some '\n' := by
    have whole := getLast?_terminated source.chars
    rw [text] at whole
    cases rest with
    | nil =>
      rw [List.append_nil] at whole
      cases legible.ends last _ whole
    | cons c rest => rwa [List.getLast?_append_of_ne_nil _ (List.cons_ne_nil c rest)] at whole
  have gap : Gap false rest false := by
    obtain ⟨b, gap, -⟩ := layoutLength_split false rest
    rw [layout, List.take_length] at gap
    rwa [gap.eq_false ended] at gap
  obtain ⟨g, rfl⟩ := List.getLast?_eq_some_iff.1 ended
  refine ⟨σ, ls, g, text, gap, script, built, legible.lines (by decide) (by decide) ?_ ?_ last⟩
  · intro l hl
    obtain ⟨b, tame⟩ := forall_lexemes script.tame l hl
    exact ⟨tame.after, tame.lone, tame.literal⟩
  · intro l hl
    obtain ⟨b, closed⟩ := forall_lexemes (script.closed built) l hl
    exact closed

namespace Passage

variable {cs : List Char} {e : Expr}

/-- What is behind the tokens up to the end of the last line. -/
def trail (p : Passage rules cs e) : List Char :=
  if cs.getLast? = some '\n' then p.gap ++ ['\n'] ++ ['\n'] else p.gap ++ ['\n']

theorem trail_layout (p : Passage rules cs e) : Gap false p.trail false := by
  unfold trail
  split
  · exact p.layout.append (.newline (.nil false))
  · exact p.layout

/-- The text of a passage on lines of its own. -/
theorem text_line (p : Passage rules cs e) : cs ++ ['\n'] = spelled p.lexemes ++ p.trail := by
  have text := p.text
  unfold Parser.terminated at text
  unfold trail
  split at text
  · rename_i last
    rw [if_pos last]
    exact (congrArg (· ++ ['\n']) text).trans (by simp)
  · rename_i last
    rw [if_neg last, text]

/-- A passage is found on lines of its own. -/
theorem legible_line (p : Passage rules cs e) (more : List Char) :
    Legible rules.frontEnd Expect.expr p.lexemes (p.trail ++ more) := by
  unfold trail
  split
  · simpa using p.legible ('\n' :: more)
  · simpa using p.legible more

theorem lexemes_ne_nil (p : Passage rules cs e) : p.lexemes ≠ [] := by
  intro empty
  have script := p.script
  rw [empty] at script
  exact script.ne_nil rfl

theorem ne_nil (p : Passage rules cs e) : cs ≠ [] := by
  rintro rfl
  obtain ⟨l, ls, eq⟩ := List.exists_cons_of_ne_nil p.lexemes_ne_nil
  have legible := p.legible []
  have text := congrArg List.length p.text
  rw [eq] at legible text
  have pos := legible.1.pos
  simp [Parser.terminated] at text
  omega

/-- What is looked for behind the tokens of a passage. -/
theorem lastExpect (p : Passage rules cs e) (A : Expect) :
    Wdl.lastExpect A p.lexemes ∈ Parser.Place.plain.ends := p.script.lastExpect

/-- What a passage says, it says at any position. -/
theorem moved (p : Passage rules cs e) (at_ : Nat) : ∃ σ e',
    Script .expr .plain σ (stepsFrom at_ p.lexemes) ∧ Build.expr rules σ = .ok e' ∧
      e'.view = e.view := by
  have script := p.script.move (keeps_from 0 at_ p.lexemes)
  rw [stepsFrom_from] at script
  exact ⟨_, _, script, Build.expr_move rules _ p.built, Expr.view_move e⟩

end Passage

end Wdl
