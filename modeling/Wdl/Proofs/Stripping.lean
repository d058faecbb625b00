import Mathlib.Data.List.Chain
import Mathlib.Data.List.ReduceOption
import Wdl.Proofs.Assembly

/-!
# Wdl.Proofs.Stripping -- what stripping a template removes

A template is also the row of its cells: one for each character and one for each placeholder. Pieces
that are tidy, with no empty text and no two texts side by side, can be read off their cells. So it
is enough to say of every line which cells are left of it. `Margin.stripped` says so without going
through the pieces one by one: it cuts the template at all line feeds at once, measures a line at
its first piece that is not blank, and drops cells from the front of a line.

* `Cell`, `cells` and `pieces` are the two ways to see a template, and `Tidy` says when they are the
  same: `Tidy.pieces_cells`.
* `Margin.lines`, `Margin.body`, `Margin.indentation` and `Margin.outdented` are the parts of the
  rule `Margin.stripped`.
* `lines_eq`, `body_eq`, `indent_eq` and `cells_dedent` compare each part with the function of
  `Wdl.Text.Indentation` that does it piece by piece. `strip_eq` puts them together.
* `strip_eq_stripped` is the result: `strip` gives just that, keeps every placeholder, and what it
  gives is tidy.
-/

namespace Wdl

variable {α : Type}

namespace Margin

open Indentation (Line isIndent)

/-! ## Cells -/

/-- What a template is made of in the end: a character, or something that stands in for text. -/
inductive Cell (α : Type) where
  | char (c : Char)
  | hole (content : α)

/-- The cells of a piece. -/
def pieceCells : Piece α → List (Cell α)
  | .text chars => chars.map .char
  | .hole content => [.hole content]

/-- The cells of some pieces. -/
def cells (ps : List (Piece α)) : List (Cell α) := ps.flatMap pieceCells

/-- A character in front of some pieces, in the text they start with if they start with one. -/
def consChar (c : Char) : List (Piece α) → List (Piece α)
  | .text chars :: rest => .text (c :: chars) :: rest
  | rest => .text [c] :: rest

/-- Cells as pieces: characters side by side are one text. -/
def pieces : List (Cell α) → List (Piece α)
  | [] => []
  | .char c :: rest => consChar c (pieces rest)
  | .hole content :: rest => .hole content :: pieces rest

/-- A piece is text. -/
def IsText (p : Piece α) : Prop := ∃ chars, p = .text chars

/-- No text is empty, and no two stand side by side. -/
structure Tidy (ps : List (Piece α)) : Prop where
  filled : .text [] ∉ ps
  apart : ps.IsChain fun p q => ¬(IsText p ∧ IsText q)

/-! ## The rule for stripping -/

/-- A piece whose line feeds are marks of their own. -/
def marked : Piece α → List (Option (Piece α))
  | .hole content => [some (.hole content)]
  | .text chars => ((chars.splitOn '\n').map fun cs => some (.text cs)).intersperse none

/-- The lines of a template: what stands between its line feeds. -/
def lines (template : List (Piece α)) : List (Line α) :=
  ((template.flatMap marked).splitOnP Option.isNone).map List.reduceOption

/-- A text that holds only whitespace. -/
def isBlankText : Piece α → Bool
  | .text chars => chars.all isBlank
  | .hole _ => false

/-- A line without placeholders that holds only whitespace. -/
def isBlankLine (line : Line α) : Bool := line.all isBlankText

/-- The lines that are left when the first of several is dropped if it is blank, and then the last
one if it is blank. -/
def body (ls : List (Line α)) : List (Line α) :=
  let rest := if 2 ≤ ls.length ∧ ls.head?.any isBlankLine then ls.tail else ls
  if rest.getLast?.any isBlankLine then rest.dropLast else rest

/-- The spaces and tabs at the start of a text. -/
def leading : Piece α → List Char
  | .text chars => chars.takeWhile isIndent
  | .hole _ => []

/-- The characters of a text. -/
def chars : Piece α → List Char
  | .text chars => chars
  | .hole _ => []

/-- The indentation of a line that is not blank: the blank texts it starts with, and the spaces and
tabs at the start of the piece behind them. -/
def indentation (line : Line α) : List Char :=
  (line.takeWhile isBlankText).flatMap chars ++
    (line.dropWhile isBlankText).head?.elim [] leading

/-- The cells that are left of a line when it is moved to the left by a width. A blank line stays as
it is. -/
def outdented (width : Nat) (line : Line α) : List (Cell α) :=
  if isBlankLine line then cells line else (cells line).drop width

/-- Rows of cells with a line feed between any two. -/
def joined (rows : List (List (Cell α))) : List (Cell α) := [.char '\n'].intercalate rows

/-- The template without the indentation that its lines share, or with all of it if there are spaces
in some indentation and tabs in some. -/
def stripped (template : List (Piece α)) : Indentation.Stripped α :=
  let body := body (lines template)
  let indentations := (body.filter (!isBlankLine ·)).map indentation
  if (∃ i ∈ indentations, ' ' ∈ i) ∧ (∃ i ∈ indentations, '\t' ∈ i) then
    ⟨none, pieces (joined (body.map cells))⟩
  else
    let width := (indentations.map List.length).min?.getD 0
    ⟨some width, pieces (joined (body.map (outdented width)))⟩

/-! ## Tidy pieces

Reading pieces off their cells is a left inverse of `cells` on tidy templates. `Tidy.concat` builds
tidy templates up from the front, the way `snoc` does. -/

@[simp] theorem cells_nil : cells ([] : List (Piece α)) = [] := rfl

@[simp] theorem cells_cons (p : Piece α) (ps : List (Piece α)) :
    cells (p :: ps) = pieceCells p ++ cells ps := rfl

@[simp] theorem cells_append (ps qs : List (Piece α)) : cells (ps ++ qs) = cells ps ++ cells qs :=
  List.flatMap_append

/-- The cells of a text make that text if no text follows. -/
theorem pieces_text {chars : List Char} (filled : chars ≠ []) {rest : List (Cell α)}
    (apart : ∀ p ∈ (pieces rest).head?, ¬IsText p) :
    pieces (chars.map .char ++ rest) = .text chars :: pieces rest := by
  induction chars with
  | nil => exact absurd rfl filled
  | cons c chars ih =>
    show consChar c (pieces (chars.map .char ++ rest)) = _
    cases chars with
    | nil =>
      -- What follows starts with no text, so the character becomes a text of its own.
      show consChar c (pieces rest) = _
      unfold consChar
      split
      · rename_i after more eq
        rw [eq] at apart
        exact absurd ⟨after, rfl⟩ (apart _ rfl)
      · rfl
    | cons d chars =>
      rw [ih (by simp)]
      rfl

/-- Tidy pieces can be read off their cells. -/
theorem Tidy.pieces_cells {ps : List (Piece α)} (tidy : Tidy ps) : pieces (cells ps) = ps := by
  induction ps with
  | nil => rfl
  | cons p ps ih =>
    obtain ⟨filled, apart⟩ := tidy
    rw [List.mem_cons, not_or] at filled
    rw [List.isChain_cons] at apart
    have rest := ih ⟨filled.2, apart.2⟩
    cases p with
    | hole content =>
      show .hole content :: pieces (cells ps) = _
      rw [rest]
    | text chars =>
      have here : chars ≠ [] := fun empty => filled.1 (empty ▸ rfl)
      have next : ∀ q ∈ (pieces (cells ps)).head?, ¬IsText q := by
        rw [rest]
        intro q hq text
        exact apart.1 q hq ⟨⟨chars, rfl⟩, text⟩
      show pieces (chars.map .char ++ cells ps) = _
      rw [pieces_text here next, rest]

theorem Tidy.nil : Tidy ([] : List (Piece α)) := ⟨List.not_mem_nil, .nil⟩

theorem Tidy.dropLast {ps : List (Piece α)} (tidy : Tidy ps) : Tidy ps.dropLast :=
  ⟨fun h => tidy.filled (List.dropLast_subset _ h), tidy.apart.dropLast⟩

/-- A piece can follow tidy ones if it is no empty text and no second text in a row. -/
theorem Tidy.concat {ps : List (Piece α)} (tidy : Tidy ps) {p : Piece α} (filled : p ≠ .text [])
    (apart : ∀ q ∈ ps.getLast?, ¬(IsText q ∧ IsText p)) : Tidy (ps ++ [p]) where
  filled h := by
    rw [List.mem_append, List.mem_singleton] at h
    rcases h with h | rfl
    · exact tidy.filled h
    · exact filled rfl
  apart := by
    apply tidy.apart.append (.singleton p)
    rintro q hq _ ⟨⟩
    exact apart q hq

theorem not_isText_hole (content : α) : ¬IsText (.hole content) := by
  rintro ⟨chars, eq⟩
  cases eq

end Margin

/-! ## Lines put back together

The lines that are left are put together by `snoc`, which keeps what is there tidy and adds the
cells of the new piece. -/

namespace Indentation

open Margin

/-- Adding a piece behind tidy ones leaves them tidy. -/
theorem tidy_snoc {done : List (Piece α)} (tidy : Tidy done) (p : Piece α) :
    Tidy (snoc done p) := by
  unfold snoc
  split
  · rename_i content
    exact tidy.concat (by simp) fun q _ both => not_isText_hole content both.2
  · exact tidy
  · rename_i chars filled
    split
    · -- The text goes into the one at the end, before which there is no other.
      rename_i before last
      obtain ⟨front, rfl⟩ := List.getLast?_eq_some_iff.1 last
      rw [List.dropLast_concat]
      have apart := (List.isChain_append.1 tidy.apart).2.2
      have front : Tidy front := by simpa using tidy.dropLast
      refine front.concat ?_ fun q hq both => ?_
      · intro empty
        cases chars with
        | nil => exact filled rfl
        | cons c chars => simp at empty
      · exact apart q hq (.text before) rfl ⟨both.1, before, rfl⟩
    · rename_i other
      refine tidy.concat (fun empty => filled (Piece.text.inj empty)) ?_
      rintro q hq ⟨⟨before, rfl⟩, -⟩
      exact other before hq

/-- The cells of the new piece are behind those that were there. -/
theorem cells_snoc (done : List (Piece α)) (p : Piece α) :
    cells (snoc done p) = cells done ++ pieceCells p := by
  unfold snoc
  split
  · simp
  · simp [pieceCells]
  · split
    · rename_i before last
      obtain ⟨front, rfl⟩ := List.getLast?_eq_some_iff.1 last
      simp [pieceCells]
    · simp

/-- Lines put back together are tidy, whatever their pieces were. -/
theorem tidy_unlines (ls : List (Line α)) : Tidy (unlines ls) := by
  have folded : ∀ (ps : List (Piece α)) {done}, Tidy done → Tidy (ps.foldl snoc done) := by
    intro ps
    induction ps with
    | nil => exact id
    | cons p ps ih => exact fun tidy => ih (tidy_snoc tidy p)
  exact folded _ .nil

theorem cells_linePieces (ls : List (Line α)) :
    cells (linePieces ls) = joined (ls.map cells) := by
  unfold joined
  induction ls using linePieces.induct with
  | case1 => rfl
  | case2 line => simp [linePieces]
  | case3 line more filled ih =>
    cases more with
    | nil => exact absurd rfl filled
    | cons next more =>
      rw [linePieces, cells_append, cells_cons, ih]
      · simp [List.intercalate_cons_cons, pieceCells]
      · exact filled

/-- Lines are put back together cell by cell. -/
theorem unlines_eq (ls : List (Line α)) : unlines ls = pieces (joined (ls.map cells)) := by
  have folded : ∀ ps done : List (Piece α),
      cells (ps.foldl snoc done) = cells done ++ cells ps := by
    intro ps
    induction ps with
    | nil => simp
    | cons p ps ih =>
      intro done
      rw [List.foldl_cons, ih, cells_snoc, cells_cons, List.append_assoc]
  have same : cells (unlines ls) = joined (ls.map cells) := by
    rw [unlines, folded, cells_nil, List.nil_append, cells_linePieces]
  rw [← same, (tidy_unlines ls).pieces_cells]

/-! ## Lines taken apart

The function cuts one text at a time and keeps the line that is not yet at its end. The rule cuts
the marked template as a whole. `linesOf` takes the marked pieces one by one and so is in between.
-/

/-- The lines of pieces of which the line feeds are marked. -/
def linesOf (marked : List (Option (Piece α))) : List (Line α) :=
  (marked.splitOnP Option.isNone).map List.reduceOption

/-- A mark ends the first line. -/
theorem linesOf_none (marked : List (Option (Piece α))) :
    linesOf (none :: marked) = [] :: linesOf marked := by
  unfold linesOf
  rw [List.splitOnP_cons_eq_if_modifyHead]
  rfl

/-- A piece that is no mark goes into the first line. -/
theorem linesOf_some (p : Piece α) (marked : List (Option (Piece α))) :
    linesOf (some p :: marked) = onFirst [p] (linesOf marked) := by
  unfold linesOf
  rw [List.splitOnP_cons_eq_if_modifyHead]
  cases eq : marked.splitOnP Option.isNone with
  | nil => exact absurd eq (List.splitOnP_ne_nil _ _)
  | cons first more => simp [onFirst, List.reduceOption_cons_of_some]

/-- Cutting a text gives its lines and the one that is not yet at its end. -/
theorem cutLines_eq (chars : List Char) :
    chars.splitOn '\n' = (cutLines chars).1 :: (cutLines chars).2 := by
  unfold List.splitOn
  induction chars with
  | nil => rfl
  | cons c chars ih =>
    rw [List.splitOnP_cons_eq_if_modifyHead, ih, cutLines]
    by_cases feed : c = '\n'
    · simp [feed]
    · simp [feed]

/-- Every line of a text but the last is a line of the template. -/
theorem linesOf_texts (ls : List (List Char)) (last : List Char)
    (marked : List (Option (Piece α))) :
    linesOf ((((ls ++ [last]).map fun cs => some (.text cs)).intersperse none) ++ marked) =
      ls.map (fun cs => [.text cs]) ++ onFirst [.text last] (linesOf marked) := by
  induction ls with
  | nil => exact linesOf_some _ _
  | cons l ls ih =>
    obtain ⟨next, more, eq⟩ : ∃ next more, ls ++ [last] = next :: more :=
      List.exists_cons_of_ne_nil (by simp)
    rw [eq] at ih
    rw [List.cons_append, eq, List.map_cons, List.map_cons, List.intersperse_cons_cons]
    rw [List.map_cons] at ih
    rw [List.cons_append, List.cons_append, linesOf_some, linesOf_none, ih]
    rfl

/-- The function cuts a template into the lines of the rule. -/
theorem lines_eq (template : List (Piece α)) : lines template = Margin.lines template := by
  show _ = linesOf (template.flatMap marked)
  induction template with
  | nil => rfl
  | cons p template ih =>
    rw [List.flatMap_cons]
    cases p with
    | hole content =>
      rw [lines, ih]
      exact (linesOf_some _ _).symm
    | text chars =>
      rw [lines, marked, cutLines_eq, ih]
      obtain ⟨first, more⟩ := cutLines chars
      dsimp only
      -- The last line of the text is joined with what follows the text.
      rcases List.eq_nil_or_concat more with rfl | ⟨middle, last, rfl⟩
      · exact (linesOf_texts [] first _).symm
      · rw [List.concat_eq_append, ← List.cons_append, linesOf_texts, List.reverse_append]
        simp

/-! ## Indentation

The function collects the indentation of a line while it goes through its blank texts. -/

theorem indentAfter_eq (before : List Char) (line : Line α) :
    indentAfter before line =
      if Margin.isBlankLine line then none else some (before ++ indentation line) := by
  induction line generalizing before with
  | nil => rfl
  | cons p line ih =>
    cases p with
    | hole content => simp [indentAfter, Margin.isBlankLine, isBlankText, indentation, leading]
    | text chars =>
      rw [indentAfter]
      by_cases blank : chars.all isBlank = true
      · rw [if_pos blank, ih]
        simp only [Margin.isBlankLine, List.all_cons, isBlankText, blank, Bool.true_and,
          indentation, List.takeWhile_cons, List.dropWhile_cons, if_true, List.flatMap_cons,
          Margin.chars, List.append_assoc]
      · rw [if_neg blank]
        simp [Margin.isBlankLine, isBlankText, blank, indentation, leading]

/-- The function finds the indentation of the rule, and none for a blank line. -/
theorem indent_eq (line : Line α) :
    indent line = if Margin.isBlankLine line then none else some (indentation line) :=
  indentAfter_eq [] line

theorem isBlankLine_eq (line : Line α) : isBlankLine line = Margin.isBlankLine line := by
  unfold isBlankLine
  rw [indent_eq]
  by_cases blank : Margin.isBlankLine line = true
  · simp [blank]
  · simp [blank]

theorem filterMap_indent (ls : List (Line α)) :
    ls.filterMap indent = (ls.filter (!Margin.isBlankLine ·)).map indentation := by
  induction ls with
  | nil => rfl
  | cons line ls ih =>
    rw [List.filterMap_cons, indent_eq, ih, List.filter_cons]
    by_cases blank : Margin.isBlankLine line = true
    · simp [blank]
    · simp [blank]

/-- The function drops the lines that the rule drops. -/
theorem body_eq (ls : List (Line α)) : dropBlankLast (dropBlankFirst ls) = body ls := by
  have last : ∀ ls : List (Line α), dropBlankLast ls =
      if ls.getLast?.any Margin.isBlankLine then ls.dropLast else ls := by
    intro ls
    unfold dropBlankLast
    cases ls.getLast? with
    | none => rfl
    | some line => simp [isBlankLine_eq]
  have first : dropBlankFirst ls =
      if 2 ≤ ls.length ∧ ls.head?.any Margin.isBlankLine then ls.tail else ls := by
    unfold dropBlankFirst
    split
    · simp [isBlankLine_eq]
    · rename_i short
      rw [if_neg]
      rintro ⟨long, -⟩
      obtain ⟨line, rest, rfl⟩ := List.exists_cons_of_length_pos (by omega : 0 < ls.length)
      obtain ⟨next, more, rfl⟩ := List.exists_cons_of_length_pos
        (by rw [List.length_cons] at long; omega : 0 < rest.length)
      exact short line next more rfl
  unfold body
  rw [last, first]

/-! ## Moving lines to the left

The function takes the width off the texts one by one, and goes on with what is left of it behind a
text that is shorter. So it takes that many cells off the line, as long as these are characters.
They are, since the width is the length of the shortest indentation and all of an indentation is
text. -/

theorem cells_dedent_zero (line : Line α) : cells (dedent 0 line) = cells line := by
  induction line with
  | nil => rfl
  | cons p line ih =>
    cases p with
    | hole content => simp [dedent, ih]
    | text chars => simp [dedent, ih, pieceCells]

/-- No more than the indentation is dropped from the front of a line. -/
theorem cells_dedent {line : Line α} (text : Margin.isBlankLine line = false) {n : Nat}
    (within : n ≤ (indentation line).length) : cells (dedent n line) = (cells line).drop n := by
  induction line generalizing n with
  | nil => cases text
  | cons p line ih =>
    cases p with
    | hole content =>
      -- A line that starts with a placeholder has no indentation.
      have zero : n = 0 := by simpa [indentation, isBlankText, leading] using within
      rw [zero, cells_dedent_zero, List.drop_zero]
    | text chars =>
      have here : cells (dedent n (.text chars :: line)) =
          (chars.map .char).drop n ++ cells (dedent (n - chars.length) line) := by
        simp [dedent, pieceCells]
      rw [here, cells_cons, pieceCells, List.drop_append, List.length_map]
      congr 1
      by_cases blank : chars.all isBlank = true
      · apply ih
        · simpa [Margin.isBlankLine, isBlankText, blank] using text
        · simp only [indentation, List.takeWhile_cons, List.dropWhile_cons, isBlankText, blank,
            if_true, List.flatMap_cons, Margin.chars, List.append_assoc,
            List.length_append] at within ⊢
          omega
      · -- The indentation ends in this piece, so nothing is left to drop behind it.
        have inside : n ≤ (chars.takeWhile isIndent).length := by
          simpa [indentation, isBlankText, blank, leading] using within
        have zero : n - chars.length = 0 := by
          have shorter := (List.takeWhile_prefix (l := chars) isIndent).length_le
          omega
        rw [zero, cells_dedent_zero, List.drop_zero]

/-- The least of some lengths is no more than any of them. -/
theorem width_le {indentations : List (List Char)} {i : List Char} (h : i ∈ indentations) :
    (indentations.map List.length).min?.getD 0 ≤ i.length := by
  have member : i.length ∈ indentations.map List.length := List.mem_map_of_mem h
  cases least : (indentations.map List.length).min? with
  | none => exact Nat.zero_le _
  | some n => exact (List.min?_eq_some_iff.1 least).2 _ member

/-- Stripping leaves the cells that the rule says. -/
theorem strip_eq (template : List (Piece α)) : strip template = stripped template := by
  unfold strip stripped
  simp only [body_eq, lines_eq, filterMap_indent]
  generalize body (Margin.lines template) = ls
  generalize measured : (ls.filter (!Margin.isBlankLine ·)).map indentation = indentations
  have mixed : (indentations.any (·.contains ' ') && indentations.any (·.contains '\t')) = true ↔
      (∃ i ∈ indentations, ' ' ∈ i) ∧ ∃ i ∈ indentations, '\t' ∈ i := by simp
  by_cases both : (∃ i ∈ indentations, ' ' ∈ i) ∧ ∃ i ∈ indentations, '\t' ∈ i
  · rw [if_pos both, if_pos (mixed.2 both), unlines_eq]
  · rw [if_neg both, if_neg (mixed.not.2 both), unlines_eq, List.map_map]
    -- No line is indented less than the width, so dropping cells stays within the indentation.
    have rows : ∀ line ∈ ls, cells
        (if isBlankLine line then line
          else dedent ((indentations.map List.length).min?.getD 0) line) =
        outdented ((indentations.map List.length).min?.getD 0) line := by
      intro line hl
      unfold outdented
      rw [isBlankLine_eq]
      by_cases blank : Margin.isBlankLine line = true
      · rw [if_pos blank, if_pos blank]
      · rw [if_neg blank, if_neg blank]
        have text : Margin.isBlankLine line = false := by simpa using blank
        apply cells_dedent text
        apply width_le
        rw [← measured]
        exact List.mem_map_of_mem (List.mem_filter.2 ⟨hl, by simp [text]⟩)
    congr 3
    exact List.map_congr_left rows

/-- What stripping leaves is put together from lines, and so it is tidy. -/
theorem tidy_strip (template : List (Piece α)) : Tidy (strip template).pieces := by
  unfold strip
  dsimp only
  split
  · exact tidy_unlines _
  · exact tidy_unlines _

/-- Stripping removes the indentation that the lines of a template share, and no placeholder; what
is left is tidy. -/
theorem strip_eq_stripped (template : List (Piece α)) :
    strip template = stripped template ∧
      Build.holes (strip template).pieces = Build.holes template ∧
      Tidy (strip template).pieces :=
  ⟨strip_eq template, Build.holes_strip template, tidy_strip template⟩

/-- The line of the placeholder is indented less than the text behind the placeholder is. -/
example : (strip [.text "\n   x\n  ".toList, .hole 0, .text "    y\n ".toList]).pieces =
    [.text " x\n".toList, .hole 0, .text "    y".toList] := by decide

end Indentation

end Wdl
