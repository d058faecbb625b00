import Wdl.Proofs.Stripping

/-!
# Wdl.Proofs.Shifting -- a template that stands further to the right

Spaces at the beginning of a line are part of its first text, or a text of their own. Either way
they are in front of its cells and in front of its indentation. So if every line of a template that
is not blank gets the same number of spaces, its lines share just these spaces more, and stripping
gives what it gave before.

* `Spaced` puts spaces in front of a line, `ShiftedLine` in front of one that is not blank, and
  `Shifted` relates two templates line by line. `shift` is a function that shifts a template, and
  `shifted_shift` shows that there always is one.
* `Spaced.cells_eq` and `Spaced.indentation_eq` say what spaces do to one line. From them
  `body_shifted`, `indentations_shifted` and `outdented_shifted` say what they do to the lines of a
  template.
* `strip_shifted` is the result. It goes by `stripped`, the rule of `Wdl.Proofs.Stripping`, and
  never looks at how `strip` goes through the pieces.
-/

namespace Wdl

variable {α : Type}

namespace Margin

open Indentation (Line onFirst cutLines strip)

/-! ## More spaces -/

/-- Spaces in a row. -/
def spaces (k : Nat) : List Char := List.replicate k ' '

/-- A line with more spaces at its beginning: in a text there, or in one of their own. -/
inductive Spaced (k : Nat) : Line α → Line α → Prop
  | within (chars : List Char) (rest : Line α) :
      Spaced k (.text chars :: rest) (.text (spaces k ++ chars) :: rest)
  | apart (line : Line α) : Spaced k line (.text (spaces k) :: line)
  | behind {line line' : Line α} (h : Spaced k line line') :
      Spaced k (.text [] :: line) (.text [] :: line')

/-- A line of a template that is shifted to the right; one that is blank stays as it is. -/
inductive ShiftedLine (k : Nat) (line : Line α) : Line α → Prop
  | blank (h : isBlankLine line = true) : ShiftedLine k line line
  | spaced {line' : Line α} (h : isBlankLine line = false) (spaced : Spaced k line line') :
      ShiftedLine k line line'

/-- One template is another one with more spaces at the beginning of every line that is not
blank. -/
def Shifted (k : Nat) (template template' : List (Piece α)) : Prop :=
  List.Forall₂ (ShiftedLine k) (lines template) (lines template')

/-- The indentations of the lines that are not blank. -/
def indentations (ls : List (Line α)) : List (List Char) :=
  (ls.filter (!isBlankLine ·)).map indentation

/-- The length of the shortest of some texts, if there is any. -/
def leastLength (texts : List (List Char)) : Nat := (texts.map List.length).min?.getD 0

/-- Whether the line that a template starts with is blank. -/
def startsBlank (template : List (Piece α)) : Bool := (lines template).head?.any isBlankLine

/-- A text in front of a template, with more spaces behind every line feed that does not start a
blank line. -/
def shiftText (k : Nat) (rest : List (Piece α)) : List Char → List Char
  | [] => []
  | c :: cs =>
    if c = '\n' ∧ startsBlank (.text cs :: rest) = false then
      c :: (spaces k ++ shiftText k rest cs)
    else c :: shiftText k rest cs

/-- Shifts all lines of a template but the first. -/
def shiftBehind (k : Nat) : List (Piece α) → List (Piece α)
  | [] => []
  | .hole content :: rest => .hole content :: shiftBehind k rest
  | .text cs :: rest => .text (shiftText k rest cs) :: shiftBehind k rest

/-- Shifts a template to the right. -/
def shift (k : Nat) (template : List (Piece α)) : List (Piece α) :=
  if startsBlank template then shiftBehind k template
  else .text (spaces k) :: shiftBehind k template

/-! ## The lines of a shifted template

The function `shift` goes through the pieces of a template and looks for line feeds in them. Here
its result is cut into lines again, which are those of the template with more spaces. All that is
used of the cutting is how one piece in front changes the lines: a placeholder and a text without
line feeds go into the first one, and a line feed starts a new one. -/

/-- There is always a first line. -/
theorem exists_linesOf (marked : List (Option (Piece α))) :
    ∃ first more, Indentation.linesOf marked = first :: more := by
  have filled : Indentation.linesOf marked ≠ [] := by
    unfold Indentation.linesOf
    rw [Ne, List.map_eq_nil_iff]
    exact List.splitOnP_ne_nil _ _
  exact List.exists_cons_of_ne_nil filled

/-- A placeholder goes into the first line. -/
theorem lines_hole (content : α) (rest : List (Piece α)) :
    lines (.hole content :: rest) = onFirst [.hole content] (lines rest) :=
  Indentation.linesOf_some _ _

theorem cutLines_append {s : List Char} (inside : '\n' ∉ s) (cs : List Char) :
    cutLines (s ++ cs) = (s ++ (cutLines cs).1, (cutLines cs).2) := by
  induction s with
  | nil => rfl
  | cons c s ih =>
    rw [List.mem_cons, not_or] at inside
    rw [List.cons_append, cutLines, ih inside.2]
    simp [Ne.symm inside.1]

/-- What stands in front of a text without a line feed goes into the first line. -/
theorem lines_text (cs : List Char) (rest : List (Piece α)) :
    ∃ chars line more, lines (.text cs :: rest) = (.text chars :: line) :: more ∧
      ∀ s, '\n' ∉ s → lines (.text (s ++ cs) :: rest) = (.text (s ++ chars) :: line) :: more := by
  -- Only the first line of the text is in the first line of the template.
  obtain ⟨tail, marks⟩ : ∃ tail : List (Option (Piece α)), ∀ first,
      ((first :: (cutLines cs).2).map fun cs => some (Piece.text cs)).intersperse none =
        some (.text first) :: tail := by
    cases (cutLines cs).2 with
    | nil => exact ⟨[], fun _ => rfl⟩
    | cons next more => exact ⟨_, fun _ => rfl⟩
  obtain ⟨line, more, split⟩ := exists_linesOf (tail ++ rest.flatMap marked)
  have whole : ∀ s, '\n' ∉ s →
      lines (.text (s ++ cs) :: rest) = (.text (s ++ (cutLines cs).1) :: line) :: more := by
    intro s inside
    show Indentation.linesOf (marked (.text (s ++ cs)) ++ rest.flatMap marked) = _
    rw [marked, Indentation.cutLines_eq, cutLines_append inside, marks, List.cons_append,
      Indentation.linesOf_some, split]
    rfl
  exact ⟨_, line, more, whole [] List.not_mem_nil, whole⟩

/-- So does an empty text. -/
theorem lines_text_nil (rest : List (Piece α)) :
    lines (.text [] :: rest) = onFirst [.text []] (lines rest) :=
  Indentation.linesOf_some _ _

/-- A line feed starts a new line. -/
theorem lines_text_feed (cs : List Char) (rest : List (Piece α)) :
    lines (.text ('\n' :: cs) :: rest) = [.text []] :: lines (.text cs :: rest) := by
  show Indentation.linesOf (marked (.text ('\n' :: cs)) ++ rest.flatMap marked) =
    _ :: Indentation.linesOf (marked (.text cs) ++ rest.flatMap marked)
  rw [marked, marked, Indentation.cutLines_eq, Indentation.cutLines_eq, cutLines]
  simp only [if_true, List.map_cons, List.intersperse_cons_cons, List.cons_append]
  rw [Indentation.linesOf_some, Indentation.linesOf_none]
  rfl

theorem newline_notMem_spaces (k : Nat) : '\n' ∉ spaces k := by
  intro mem
  cases List.eq_of_mem_replicate mem

/-- All lines but the first get more spaces, the text in front of the template among them. -/
theorem lines_shiftText {k : Nat} {rest rest' : List (Piece α)}
    (behind : ∃ first more more', lines rest = first :: more ∧ lines rest' = first :: more' ∧
      List.Forall₂ (ShiftedLine k) more more') (cs : List Char) :
    ∃ first more more', lines (.text cs :: rest) = first :: more ∧
      lines (.text (shiftText k rest cs) :: rest') = first :: more' ∧
      List.Forall₂ (ShiftedLine k) more more' := by
  induction cs with
  | nil =>
    obtain ⟨first, more, more', eq, eq', each⟩ := behind
    refine ⟨.text [] :: first, more, more', ?_, ?_, each⟩
    · rw [lines_text_nil, eq]
      rfl
    · rw [shiftText, lines_text_nil, eq']
      rfl
  | cons c cs ih =>
    obtain ⟨first, more, more', eq, eq', each⟩ := ih
    obtain ⟨chars, line, more₁, split, prefixed⟩ := lines_text cs rest
    obtain ⟨chars', line', more₂, split', prefixed'⟩ := lines_text (shiftText k rest cs) rest'
    -- Both texts go on with the same line.
    rw [eq] at split
    rw [eq'] at split'
    cases split
    cases split'
    by_cases feed : c = '\n'
    · subst feed
      have starts : startsBlank (.text cs :: rest) = isBlankLine (.text chars :: line) := by
        rw [startsBlank, eq]
        rfl
      rw [shiftText, starts]
      cases blank : isBlankLine (.text chars :: line) with
      | true =>
        refine ⟨[.text []], _ :: more, _ :: more', ?_, ?_, .cons (.blank blank) each⟩
        · rw [lines_text_feed, eq]
        · rw [if_neg (by simp), lines_text_feed, eq']
      | false =>
        have moved := ShiftedLine.spaced blank (.within (k := k) chars line)
        refine ⟨[.text []], _ :: more, _ :: more', ?_, ?_, .cons moved each⟩
        · rw [lines_text_feed, eq]
        · rw [if_pos ⟨rfl, rfl⟩, lines_text_feed, prefixed' _ (newline_notMem_spaces k)]
    · have inside : '\n' ∉ [c] := by simpa using Ne.symm feed
      rw [shiftText, if_neg (by simp [feed])]
      exact ⟨_, more, more', prefixed [c] inside, prefixed' [c] inside, each⟩

/-- All lines but the first get more spaces. -/
theorem lines_shiftBehind (k : Nat) (template : List (Piece α)) :
    ∃ first more more', lines template = first :: more ∧
      lines (shiftBehind k template) = first :: more' ∧
      List.Forall₂ (ShiftedLine k) more more' := by
  induction template with
  | nil => exact ⟨[], [], [], rfl, rfl, .nil⟩
  | cons p rest ih =>
    cases p with
    | hole content =>
      obtain ⟨first, more, more', eq, eq', each⟩ := ih
      refine ⟨.hole content :: first, more, more', ?_, ?_, each⟩
      · rw [lines_hole, eq]
        rfl
      · rw [shiftBehind, lines_hole, eq']
        rfl
    | text cs => exact lines_shiftText ih cs

/-- Every template can be shifted. -/
theorem shifted_shift (k : Nat) (template : List (Piece α)) :
    Shifted k template (shift k template) := by
  obtain ⟨first, more, more', eq, eq', each⟩ := lines_shiftBehind k template
  have starts : startsBlank template = isBlankLine first := by
    rw [startsBlank, eq]
    rfl
  unfold Shifted shift
  rw [starts]
  cases blank : isBlankLine first with
  | true =>
    rw [if_pos rfl, eq, eq']
    exact .cons (.blank blank) each
  | false =>
    obtain ⟨chars, line, more₁, split, prefixed⟩ := lines_text [] (shiftBehind k template)
    have front := prefixed (spaces k) (newline_notMem_spaces k)
    rw [lines_text_nil, eq'] at split
    cases split
    rw [List.append_nil] at front
    rw [if_neg (by simp), eq, front]
    exact .cons (.spaced blank (.apart first)) each

/-! ## What more spaces change

Of the three parts of the rule, the first and the last lines are dropped alike since the same lines
are blank, all indentations get the same spaces in front, and what is left of a line behind its
indentation is what was left before. -/

theorem isBlank_spaces (k : Nat) : (spaces k).all isBlank = true := by
  rw [spaces, List.all_replicate]
  simp [show isBlank ' ' = true by decide]

section Lines

variable {k : Nat} {line line' : Line α} {ls ls' : List (Line α)}

/-- Spaces do not make a line blank, nor keep it from being so. -/
theorem Spaced.isBlankLine_eq (h : Spaced k line line') : isBlankLine line' = isBlankLine line := by
  induction h with
  | within chars rest =>
    simp [isBlankLine, isBlankText, List.all_append, isBlank_spaces]
  | apart line => simp [isBlankLine, isBlankText, isBlank_spaces]
  | behind _ ih => simpa [isBlankLine, isBlankText] using ih

/-- The spaces are the first cells. -/
theorem Spaced.cells_eq (h : Spaced k line line') :
    cells line' = (spaces k).map .char ++ cells line := by
  induction h with
  | within chars rest => simp [pieceCells]
  | apart line => simp [pieceCells]
  | behind _ ih => simpa [pieceCells] using ih

/-- The indentation grows by the spaces, since all of them are blank. -/
theorem Spaced.indentation_eq (h : Spaced k line line') :
    indentation line' = spaces k ++ indentation line := by
  induction h with
  | within chs rest =>
    by_cases blank : chs.all isBlank = true
    · simp [indentation, isBlankText, List.all_append, isBlank_spaces, blank, chars]
    · have leads : (spaces k ++ chs).takeWhile Indentation.isIndent =
          spaces k ++ chs.takeWhile Indentation.isIndent := by
        apply List.takeWhile_append_of_pos
        intro c hc
        rw [List.eq_of_mem_replicate hc]
        rfl
      simp [indentation, isBlankText, List.all_append, isBlank_spaces, blank, leading, leads]
  | apart line => simp [indentation, isBlankText, isBlank_spaces, chars]
  | behind _ ih =>
    simpa [indentation, isBlankText, chars, List.takeWhile_cons, List.dropWhile_cons] using ih

theorem ShiftedLine.isBlankLine_eq (h : ShiftedLine k line line') :
    isBlankLine line' = isBlankLine line := by
  cases h with
  | blank _ => rfl
  | spaced _ spaced => exact spaced.isBlankLine_eq

/-- A line that is shifted to the right and back is what it was. -/
theorem ShiftedLine.outdented_eq (h : ShiftedLine k line line') (width : Nat) :
    outdented (width + k) line' = outdented width line := by
  have same := h.isBlankLine_eq
  cases h with
  | blank blank => rw [outdented, outdented, if_pos blank, if_pos blank]
  | spaced text spaced =>
    have length : ((spaces k).map Cell.char : List (Cell α)).length = k := by simp [Margin.spaces]
    rw [outdented, outdented, same, if_neg (by simp [text]), if_neg (by simp [text]),
      spaced.cells_eq, Nat.add_comm, ← List.drop_drop, List.drop_left' length]

/-- The same lines are blank. -/
theorem map_isBlankLine (h : List.Forall₂ (ShiftedLine k) ls ls') :
    ls'.map isBlankLine = ls.map isBlankLine := by
  induction h with
  | nil => rfl
  | cons first _ ih => rw [List.map_cons, List.map_cons, first.isBlankLine_eq, ih]

/-- The same lines are left. -/
theorem body_shifted (h : List.Forall₂ (ShiftedLine k) ls ls') :
    List.Forall₂ (ShiftedLine k) (body ls) (body ls') := by
  have blank (o : Option (Line α)) : o.any isBlankLine = (o.map isBlankLine).any id := by
    cases o <;> rfl
  have last {ls ls' : List (Line α)} (h : List.Forall₂ (ShiftedLine k) ls ls') :
      List.Forall₂ (ShiftedLine k)
        (if ls.getLast?.any isBlankLine then ls.dropLast else ls)
        (if ls'.getLast?.any isBlankLine then ls'.dropLast else ls') := by
    rw [blank, blank, ← List.getLast?_map, ← List.getLast?_map, map_isBlankLine h]
    split
    · rw [List.dropLast_eq_take, List.dropLast_eq_take, h.length_eq]
      exact List.forall₂_take _ h
    · exact h
  unfold body
  apply last
  rw [blank, blank, ← List.head?_map, ← List.head?_map, map_isBlankLine h, h.length_eq]
  split
  · cases h with
    | nil => exact .nil
    | cons _ rest => exact rest
  · exact h

/-- All indentations grow by the same spaces. -/
theorem indentations_shifted (h : List.Forall₂ (ShiftedLine k) ls ls') :
    indentations ls' = (indentations ls).map (spaces k ++ ·) := by
  unfold indentations
  induction h with
  | nil => rfl
  | cons first _ ih =>
    cases first with
    | blank blank => simpa [blank] using ih
    | spaced text spaced =>
      have text' := spaced.isBlankLine_eq.trans text
      simpa [text, text', spaced.indentation_eq] using ih

/-- There is no indentation just if all lines are blank. -/
theorem indentations_eq_nil : indentations ls = [] ↔ ls.all isBlankLine = true := by
  simp [indentations]

/-- Only blank lines are dropped. -/
theorem indentations_body (ls : List (Line α)) : indentations (body ls) = indentations ls := by
  unfold indentations
  congr 1
  have last (ls : List (Line α)) :
      (if ls.getLast?.any isBlankLine then ls.dropLast else ls).filter (!isBlankLine ·) =
        ls.filter (!isBlankLine ·) := by
    split
    · rename_i blank
      rcases List.eq_nil_or_concat ls with rfl | ⟨front, line, rfl⟩
      · rfl
      · have blank : isBlankLine line = true := by simpa using blank
        simp [blank]
    · rfl
  unfold body
  rw [last]
  split
  · rename_i starts
    cases ls with
    | nil => rfl
    | cons line rest =>
      have blank : isBlankLine line = true := starts.2
      simp [blank]
  · rfl

/-- Lines that are shifted to the right and back are what they were. -/
theorem outdented_shifted (h : List.Forall₂ (ShiftedLine k) ls ls') (width : Nat) :
    ls'.map (outdented (width + k)) = ls.map (outdented width) := by
  induction h with
  | nil => rfl
  | cons first _ ih => rw [List.map_cons, List.map_cons, first.outdented_eq, ih]

/-- Blank lines are not shifted. -/
theorem eq_of_blank (h : List.Forall₂ (ShiftedLine k) ls ls')
    (blank : ls.all isBlankLine = true) : ls' = ls := by
  induction h with
  | nil => rfl
  | cons first _ ih =>
    rw [List.all_cons, Bool.and_eq_true] at blank
    cases first with
    | blank _ => rw [ih blank.2]
    | spaced text _ => simp [blank.1] at text

end Lines

/-- If all of some texts grow by as many characters, so does the least length. -/
theorem leastLength_map {texts : List (List Char)} (filled : texts ≠ []) (front : List Char) :
    leastLength (texts.map (front ++ ·)) = leastLength texts + front.length := by
  obtain ⟨least, found⟩ : ∃ least, (texts.map List.length).min? = some least := by
    rw [← Option.isSome_iff_exists, List.isSome_min?_iff]
    simpa using filled
  obtain ⟨mem, le⟩ := List.min?_eq_some_iff.1 found
  have further : ((texts.map (front ++ ·)).map List.length).min? = some (least + front.length) := by
    rw [List.min?_eq_some_iff]
    constructor
    · obtain ⟨text, htext, rfl⟩ := List.mem_map.1 mem
      refine List.mem_map.2 ⟨front ++ text, List.mem_map_of_mem htext, ?_⟩
      rw [List.length_append, Nat.add_comm]
    · simp only [List.mem_map, forall_exists_index, and_imp, forall_apply_eq_imp_iff₂,
        List.length_append]
      intro text htext
      have shortest := le text.length (List.mem_map_of_mem htext)
      omega
  rw [leastLength, leastLength, found, further]
  rfl

/-! ## Stripping -/

/-- Without tabs in the indentations, what they share is removed. -/
theorem strip_untabbed {template : List (Piece α)}
    (untabbed : ∀ i ∈ indentations (lines template), '\t' ∉ i) :
    strip template = ⟨some (leastLength (indentations (lines template))),
      pieces (joined ((body (lines template)).map
        (outdented (leastLength (indentations (lines template))))))⟩ := by
  have measured : ((body (lines template)).filter (!isBlankLine ·)).map indentation =
      indentations (lines template) := indentations_body _
  rw [Indentation.strip_eq]
  unfold stripped
  dsimp only
  rw [measured, if_neg]
  · rfl
  · rintro ⟨-, i, hi, tab⟩
    exact untabbed i hi tab

/-- A template whose indentations hold no tabs is stripped to the same when it is shifted to the
right, and the spaces by which it is shifted are removed with the rest. -/
theorem strip_shifted (k : Nat) (template : List (Piece α))
    (untabbed : ∀ i ∈ indentations (lines template), '\t' ∉ i) :
    Shifted k template (shift k template) ∧
      ∀ template', Shifted k template template' →
        (strip template').pieces = (strip template).pieces ∧
          ∃ width, (strip template).width = some width ∧ (strip template').width =
            some (if (lines template).all isBlankLine then width else width + k) := by
  refine ⟨shifted_shift k template, fun template' shifted => ?_⟩
  have grown := indentations_shifted shifted
  have untabbed' : ∀ i ∈ indentations (lines template'), '\t' ∉ i := by
    rw [grown]
    intro i hi
    obtain ⟨j, hj, rfl⟩ := List.mem_map.1 hi
    rw [List.mem_append, not_or]
    refine ⟨fun mem => ?_, untabbed j hj⟩
    cases List.eq_of_mem_replicate mem
  rw [strip_untabbed untabbed, strip_untabbed untabbed']
  cases blank : (lines template).all isBlankLine with
  | true =>
    rw [eq_of_blank shifted blank]
    exact ⟨rfl, _, rfl, rfl⟩
  | false =>
    have filled : indentations (lines template) ≠ [] := by
      rw [Ne, indentations_eq_nil, blank]
      exact Bool.false_ne_true
    have width : leastLength (indentations (lines template')) =
        leastLength (indentations (lines template)) + k := by
      rw [grown, leastLength_map filled, spaces, List.length_replicate]
    rw [width, outdented_shifted (body_shifted shifted)]
    exact ⟨rfl, _, rfl, rfl⟩

/-- The spaces are put into the text in front of a placeholder, and into no blank line. -/
theorem strip_shifted_before_hole :
    let template : List (Piece Nat) := [.text "\n  x\n \n ".toList, .hole 0, .text " y\n".toList]
    let template' : List (Piece Nat) :=
      [.text "\n    x\n \n   ".toList, .hole 0, .text " y\n".toList]
    (∀ i ∈ indentations (lines template), '\t' ∉ i) ∧ Shifted 2 template template' ∧
      (strip template').pieces = (strip template).pieces ∧
        (strip template).width = some 1 ∧ (strip template').width = some 3 := by
  intro template template'
  have untabbed : ∀ i ∈ indentations (lines template), '\t' ∉ i := by decide
  have eq : shift 2 template = template' := by decide
  have text : (lines template).all isBlankLine = false := by decide
  have width : (strip template).width = some 1 := by decide
  obtain ⟨shifted, stripped⟩ := strip_shifted 2 template untabbed
  rw [eq] at shifted
  obtain ⟨pieces, w, found, found'⟩ := stripped template' shifted
  rw [width] at found
  cases found
  rw [text] at found'
  exact ⟨untabbed, shifted, pieces, width, found'⟩

end Margin

end Wdl
