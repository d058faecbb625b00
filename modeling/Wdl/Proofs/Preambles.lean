import Mathlib.Data.Option.Basic
import Wdl.Proofs.Documents
import Wdl.Proofs.Offsets
import Wdl.Proofs.Positions
import Wdl.Proofs.Rebuilding
import Wdl.Proofs.Tokens
import Wdl.Request

/-!
# Wdl.Proofs.Preambles -- layout before a document

Lines of spaces, tabs and comments in front of a document change nothing but where everything is:
the text is accepted or rejected as before, the same tree is built, and each node is as many lines
further down and as many bytes further on as there are in front of it, in the same columns.

* `LayoutLine` is such a line, and `linesText` the text of some. They are layout for the scanner,
  and end outside of comments (`gap_lines`).
* `Document.parse_behind` is about reading: behind layout a document is read as it is without,
  further on. `parseDocument_behind` adds building, by the lemmas on moved documents of
  `Wdl.Proofs.Rebuilding`; the other direction, `parseDocument_before`, moves back.
* `Span.shift` moves a span by lines and bytes, and `span_behind` compares positions in the two
  texts.

`Request.parseBy_preamble` is the result, for either front end and whatever table of character
names.
-/

namespace Wdl

open Scan (Gap layoutLength)

/-! ## Lines of layout -/

/-- A line of nothing but layout: spaces and tabs, and perhaps a comment. -/
inductive LayoutLine : List Char → Prop
  | blank {indent : List Char} : (∀ c ∈ indent, c = ' ' ∨ c = '\t') → LayoutLine indent
  | comment {indent text : List Char} : (∀ c ∈ indent, c = ' ' ∨ c = '\t') →
      (∀ c ∈ text, c ≠ '\n' ∧ c ≠ '\r') → LayoutLine (indent ++ '#' :: text)

/-- The text of some lines, each with a line feed at its end. -/
def linesText (ls : List (List Char)) : List Char := ls.flatMap (· ++ ['\n'])

/-- Spaces and tabs in front of layout are layout. -/
theorem gap_blanks {indent g : List Char} {b : Bool} (blanks : ∀ c ∈ indent, c = ' ' ∨ c = '\t')
    (h : Gap false g b) : Gap false (indent ++ g) b := by
  induction indent with
  | nil => exact h
  | cons c indent ih =>
    obtain ⟨blank, blanks⟩ := List.forall_mem_cons.1 blanks
    exact .blank blank (ih blanks)

/-- The text of a comment is layout up to the end of its line. -/
theorem gap_remark {text g : List Char} {b : Bool} (inline : ∀ c ∈ text, c ≠ '\n' ∧ c ≠ '\r')
    (h : Gap true g b) : Gap true (text ++ g) b := by
  induction text with
  | nil => exact h
  | cons c text ih =>
    obtain ⟨⟨newline, carriage⟩, inline⟩ := List.forall_mem_cons.1 inline
    exact .remark carriage newline (ih inline)

/-- A line of layout in front of layout is layout. -/
theorem LayoutLine.gap {line g : List Char} {b : Bool} (h : LayoutLine line)
    (next : Gap false g b) : Gap false (line ++ '\n' :: g) b := by
  cases h with
  | blank blanks => exact gap_blanks blanks next.newline
  | comment blanks inline =>
    rw [List.append_assoc, List.cons_append]
    exact gap_blanks blanks (gap_remark inline next.newline).hash

/-- A line holds no line feed. -/
theorem LayoutLine.newline_notMem {line : List Char} (h : LayoutLine line) : '\n' ∉ line := by
  have blank : ∀ {indent : List Char}, (∀ c ∈ indent, c = ' ' ∨ c = '\t') → '\n' ∉ indent :=
    fun blanks mem => by simpa using blanks _ mem
  cases h with
  | blank blanks => exact blank blanks
  | comment blanks inline =>
    rw [List.mem_append, List.mem_cons]
    rintro (mem | eq | mem)
    · exact blank blanks mem
    · cases eq
    · exact (inline _ mem).1 rfl

section Lines

variable {ls : List (List Char)} (h : ∀ l ∈ ls, LayoutLine l)

include h

/-- Lines of layout are layout that ends outside of comments. -/
theorem gap_lines : Gap false (linesText ls) false := by
  induction ls with
  | nil => exact .nil false
  | cons l ls ih =>
    obtain ⟨first, rest⟩ := List.forall_mem_cons.1 h
    rw [linesText, List.flatMap_cons, List.append_assoc]
    exact first.gap (ih rest)

/-- There are as many line feeds as lines. -/
theorem count_lines : (linesText ls).count '\n' = ls.length := by
  induction ls with
  | nil => rfl
  | cons l ls ih =>
    obtain ⟨first, rest⟩ := List.forall_mem_cons.1 h
    have more : (ls.flatMap (· ++ ['\n'])).count '\n' = ls.length := ih rest
    rw [linesText, List.flatMap_cons, List.count_append, List.count_append,
      List.count_eq_zero.2 first.newline_notMem, more, List.length_cons]
    simp [Nat.add_comm]

end Lines

/-- What is behind the last line feed of some lines is empty. -/
theorem takeWhile_lines (ls : List (List Char)) :
    (linesText ls).reverse.takeWhile (· != '\n') = [] := by
  induction ls using List.reverseRecOn with
  | nil => rfl
  | append_singleton ls l _ => simp [linesText]

/-! ## Spans further on -/

/-- The span some lines further down and some bytes further on. -/
def Span.shift (lines bytes : Nat) (s : Span) : Span where
  line := s.line + lines
  column := s.column
  endLine := s.endLine + lines
  endColumn := s.endColumn
  offset := s.offset + bytes
  endOffset := s.endOffset + bytes

/-- What is in front of a position behind another text. -/
theorem take_behind (p cs : List Char) (i : Nat) :
    (p ++ cs).take (i + p.length) = p ++ cs.take i := by
  rw [Nat.add_comm, List.take_length_add_append]

/-- Behind a text there are as many lines more as it has line feeds. -/
theorem lineAt_behind (p cs : List Char) (i : Nat) :
    lineAt (p ++ cs) (i + p.length) = lineAt cs i + p.count '\n' := by
  rw [lineAt, lineAt, take_behind, List.count_append]
  omega

/-- Behind complete lines a position has the column it has without them. -/
theorem columnAt_behind (ls : List (List Char)) (cs : List Char) (i : Nat) :
    columnAt (linesText ls ++ cs) (i + (linesText ls).length) = columnAt cs i := by
  rw [columnAt, columnAt, take_behind, List.reverse_append, List.takeWhile_append,
    takeWhile_lines, List.append_nil]
  -- only on the first line of the text do its characters reach back to the layout
  split
  · rename_i all
    rw [(List.takeWhile_prefix _).eq_of_length all]
  · rfl

/-- Behind a text there are as many bytes more as it has. -/
theorem bytesBefore_behind (p cs : List Char) (i : Nat) :
    bytesBefore (p ++ cs) (i + p.length) = bytesBefore cs i + String.utf8Len p := by
  rw [bytesBefore_eq, bytesBefore_eq, take_behind, String.utf8Len_append, Nat.add_comm]

namespace SourceText

variable (s : SourceText)

/-- A position behind the end is the end. -/
theorem clamp_min (i : Nat) : s.clamp (min i s.chars.length : Nat) = s.clamp i := by
  rw [clamp, clamp, s.length_eq, Int.toNat_natCast, Int.toNat_natCast, Nat.min_assoc,
    Nat.min_self]

/-- A position outside the text is shown as the nearest one inside. -/
theorem lineColumn_clamp (i : Nat) :
    s.lineColumn i = (lineAt s.chars (min i s.chars.length),
      columnAt s.chars (min i s.chars.length)) := by
  rw [← s.lineColumn_eq (Nat.min_le_right _ _), lineColumn, lineColumn, clamp_min]

/-- The offset of a position outside the text is that of the nearest one inside. -/
theorem byteOffset_clamp (i : Nat) :
    s.byteOffset i = bytesBefore s.chars (min i s.chars.length) := by
  rw [← s.byteOffset_eq (Nat.min_le_right _ _), byteOffset, byteOffset, clamp_min]

/-- Behind lines of layout the span of a range is further on. -/
theorem span_behind {s s' : SourceText} {ls : List (List Char)} (layout : ∀ l ∈ ls, LayoutLine l)
    (text : s'.chars = linesText ls ++ s.chars) (r : Range) :
    s'.span (r.move (· + (linesText ls).length)) =
      (s.span r).shift ls.length (String.ofList (linesText ls)).utf8ByteSize := by
  have inside : ∀ i, min (i + (linesText ls).length) s'.chars.length =
      min i s.chars.length + (linesText ls).length := by
    intro i
    rw [text, List.length_append]
    omega
  simp only [span, spanBetween, lineColumn_clamp, byteOffset_clamp, Range.move_start,
    Range.move_stop, inside]
  simp only [text, lineAt_behind, columnAt_behind, bytesBefore_behind, count_lines layout,
    Span.shift, String.utf8ByteSize_ofList]

end SourceText

/-! ## Reading

The first token is looked for among those of `Expect.elements`, where no literal text is, so the
layout is passed over. From there on both scanners see the same text. -/

section Reading

variable {fe : FrontEnd} {p : List Char}

/-- Where no literal text is looked for, layout in front of a text is passed over. -/
theorem FrontEnd.next_behind (gap : Gap false p false) {A : Expect}
    (calm : ∀ t ∈ A, Parser.isLiteral t = false) (cs : List Char) :
    fe.next A ⟨0, p ++ cs⟩ = shiftFound p.length (fe.next A ⟨0, cs⟩) := by
  have passed : (⟨0, p ++ cs⟩ : Cursor).advance (layoutLength false (p ++ cs)) =
      (Cursor.shift p.length ⟨0, cs⟩).advance (layoutLength false cs) := by
    rw [gap.layoutLength_append]
    simp [Cursor.advance, Cursor.shift, Nat.add_comm, List.drop_append]
  rw [← fe.next_shift]
  simp only [next, Scan.literal?_eq_none calm, passed, Cursor.shift]
  rfl

/-- A text of nothing but layout ends where its layout ends. -/
theorem FrontEnd.next_layout {b : Bool} (gap : Gap false p b) {A : Expect}
    (calm : ∀ t ∈ A, Parser.isLiteral t = false) :
    fe.next A ⟨0, p⟩ = .ok (none, ⟨p.length, []⟩) := by
  simp [next, Scan.literal?_eq_none calm, gap.layoutLength_whole, Cursor.advance]

/-- Layout that is ended by a line feed is layout. -/
theorem gap_terminated {b : Bool} (gap : Gap false p b) :
    ∃ b', Gap false (Parser.terminated p) b' := by
  have newline : ∀ {b b' : Bool} {g : List Char}, Gap b g b' → Gap b (g ++ ['\n']) false := by
    intro b b' g h
    induction h with
    | nil b => exact (Gap.nil false).newline
    | windows _ ih => exact ih.windows
    | newline _ ih => exact ih.newline
    | remark carriage newline _ ih => exact ih.remark carriage newline
    | hash _ ih => exact ih.hash
    | blank blank _ ih => exact ih.blank blank
  unfold Parser.terminated
  split
  · exact ⟨b, gap⟩
  · exact ⟨false, newline gap⟩

/-- Where elements start, no literal text is looked for. -/
theorem calm_elements : ∀ t ∈ Expect.elements, Parser.isLiteral t = false := by decide

namespace Surface

/-- A text of nothing but layout is a document without elements. -/
theorem Document.parse_layout {b : Bool} (gap : Gap false p b) :
    Document.parse fe.next p = .ok ⟨[]⟩ := by
  obtain ⟨b', gap'⟩ := gap_terminated gap
  unfold Document.parse Parser.whole
  rw [FrontEnd.next_layout gap' calm_elements]
  rfl

/-- Behind layout a document is read as it is without, further on. -/
theorem Document.parse_behind (gap : Gap false p false) (cs : List Char) :
    Document.parse fe.next (p ++ cs) =
      Parser.shiftWhole p.length (Document.move (· + p.length)) (Document.parse fe.next cs) := by
  by_cases empty : cs = []
  · -- the line feed at the end is that of the layout or one that is added
    rw [empty, List.append_nil, Document.parse_layout gap, Document.parse_layout (Gap.nil false)]
    rfl
  · have terminated : Parser.terminated (p ++ cs) = p ++ Parser.terminated cs := by
      unfold Parser.terminated
      rw [List.getLast?_append_of_ne_nil p empty]
      split
      · rfl
      · exact List.append_assoc p cs ['\n']
    refine Parser.shifts_whole Parser.shifts_document ?_
    rw [terminated, FrontEnd.next_behind gap calm_elements]

end Surface

end Reading

/-! ## Building -/

/-- What is parsed from one text is parsed from another, changed by a map, if the other is read as
well and building carries over. -/
theorem Parsed.ofSurface_carries {α β γ δ : Type} {m : β → δ} {fe : FrontEnd}
    {surface : Except Rejection α} {surface' : Except Rejection γ} {build : α → Builder β}
    {build' : γ → Builder δ} (read : ∀ σ, surface = .ok σ →
      ∃ σ', surface' = .ok σ' ∧ Builder.Carries m (build σ) (build' σ'))
    {y : β} (h : (ofSurface fe surface build).result = .ok y) :
    (ofSurface fe surface' build').result = .ok (m y) := by
  obtain ⟨σ, parsed, before, after, run⟩ := ofSurface_eq_ok h
  obtain ⟨σ', parsed', carries⟩ := read σ parsed
  obtain ⟨after', run'⟩ := carries y before after [] run
  rw [parsed', ofSurface, ofBuilder, run']

section Documents

variable {rules : Rules} {source source' : SourceText} {p : List Char}
  (gap : Gap false p false) (text : source'.chars = p ++ source.chars)

include gap text

/-- What a document gives is given by the document behind layout, further on. -/
theorem parseDocument_behind {d : Document} (h : (parseDocument rules source).result = .ok d) :
    (parseDocument rules source').result = .ok (d.move (· + p.length) source') := by
  refine Parsed.ofSurface_carries (fun σ read => ?_) h
  refine ⟨_, ?_, Build.document_carries rules source source' σ⟩
  rw [text, Surface.Document.parse_behind gap, read]
  rfl

/-- A document behind layout gives nothing but what the document gives, further on. -/
theorem parseDocument_before {d' : Document} (h : (parseDocument rules source').result = .ok d') :
    ∃ d, (parseDocument rules source).result = .ok d ∧ d' = d.move (· + p.length) source' := by
  have back : ∀ n, n + p.length - p.length = n := fun n => Nat.add_sub_cancel n p.length
  -- what is built further on is built here from the surface form that is moved back
  have built : (parseDocument rules source).result = .ok (d'.move (· - p.length) source) := by
    refine Parsed.ofSurface_carries (fun σ' read => ?_) h
    rw [text, Surface.Document.parse_behind gap] at read
    cases here : Surface.Document.parse rules.frontEnd.next source.chars with
    | error r =>
      rw [here] at read
      cases read
    | ok σ =>
      rw [here] at read
      cases read
      have carries := Build.document_carries (f := (· - p.length)) rules source' source
        (σ.move (· + p.length))
      rw [Surface.Document.move_back back] at carries
      exact ⟨σ, rfl, carries⟩
  refine ⟨_, built, ?_⟩
  have again := parseDocument_behind gap text built
  rw [h] at again
  exact Except.ok.inj again

end Documents

/-! ## Requests -/

/-- A node further on: it holds what the node holds, in the same columns, some lines further down
and some bytes further on. -/
def Node.FurtherOn (lines bytes : Nat) (source source' : SourceText) (n n' : Node) : Prop :=
  n'.same n = true ∧ source'.span n'.range = (source.span n.range).shift lines bytes

/-- Every path from a document leads to a node further on, unless it leads nowhere. -/
theorem Node.descendant?_behind {source source' : SourceText} {ls : List (List Char)}
    (layout : ∀ l ∈ ls, LayoutLine l) (text : source'.chars = linesText ls ++ source.chars)
    (d : Document) {path : List Nat} (ne : path ≠ []) :
    Option.Rel
      (FurtherOn ls.length (String.ofList (linesText ls)).utf8ByteSize source source')
      (descendant? path (.document d))
      (descendant? path (.document (d.move (· + (linesText ls).length) source'))) := by
  obtain ⟨i, path, rfl⟩ := List.exists_cons_of_ne_nil ne
  have moved : descendant? (i :: path) (.document (d.move (· + (linesText ls).length) source')) =
      (descendant? (i :: path) (.document d)).map (Node.move (· + (linesText ls).length)) := by
    rw [descendant?, Document.children_move, ← children_move]
    exact descendant?_move (i :: path) (.document d)
  rw [moved]
  cases h : descendant? (i :: path) (.document d) with
  | none => exact .none
  | some n =>
    refine .some ⟨View.same_iff.2 (congrArg View.normal n.view_move), ?_⟩
    rw [range_move (descendant?_ne_document ne h)]
    exact SourceText.span_behind layout text n.range

namespace Request

/-- A document request is answered by what parsing gives. -/
theorem parseBy_document_ok {rules : Rules} {r : Request} (start : r.start = .document)
    {root : Root} : (r.parseBy rules).2 = .ok root ↔
      ∃ d, (parseDocument rules r.source).result = .ok d ∧ root = ⟨.document d, r.source⟩ := by
  simp only [parseBy, start, finish]
  cases (parseDocument rules r.source).result with
  | error e => simp
  | ok d =>
    simp
    exact eq_comm

/-- Lines of layout before a document, whichever front end reads it: the two texts are accepted
together, their documents are the same, and every node below the second document is the node below
the first, in the same columns, as many lines further down and as many bytes further on as the lines
of layout have. -/
theorem parseBy_preamble (rules : Rules) {ls : List (List Char)} (layout : ∀ l ∈ ls, LayoutLine l)
    {r r' : Request} (start : r.start = .document) (start' : r'.start = .document)
    (text : r'.source.chars = linesText ls ++ r.source.chars) :
    ((∃ root', (r'.parseBy rules).2 = .ok root') ↔ ∃ root, (r.parseBy rules).2 = .ok root) ∧
    ∀ root root', (r.parseBy rules).2 = .ok root → (r'.parseBy rules).2 = .ok root' →
      root'.node.same root.node = true ∧
      ∀ path ≠ [], Option.Rel
        (Node.FurtherOn ls.length (String.ofList (linesText ls)).utf8ByteSize
          root.source root'.source)
        (Node.descendant? path root.node) (Node.descendant? path root'.node) := by
  have gap := gap_lines layout
  constructor
  · constructor
    · rintro ⟨root', given⟩
      obtain ⟨d', given, -⟩ := (parseBy_document_ok start').1 given
      obtain ⟨d, given, -⟩ := parseDocument_before gap text given
      exact ⟨_, (parseBy_document_ok start).2 ⟨d, given, rfl⟩⟩
    · rintro ⟨root, given⟩
      obtain ⟨d, given, -⟩ := (parseBy_document_ok start).1 given
      exact ⟨_, (parseBy_document_ok start').2 ⟨_, parseDocument_behind gap text given, rfl⟩⟩
  · intro root root' given given'
    obtain ⟨d, built, rfl⟩ := (parseBy_document_ok start).1 given
    obtain ⟨d', built', rfl⟩ := (parseBy_document_ok start').1 given'
    have moved := parseDocument_behind gap text built
    rw [built'] at moved
    cases moved
    refine ⟨?_, fun path ne => Node.descendant?_behind layout text d ne⟩
    exact View.same_iff.2 (congrArg View.normal (d.view_move r'.source))

/-- A comment of three characters and four bytes, and a blank line. -/
theorem parseBy_preamble_accent :
    let r : Request :=
      { start := .document, source := .ofString "version 1.0\nstruct S { Int x }" "" "" }
    let r' : Request :=
      { start := .document, source := .ofString "# é\n \t\nversion 1.0\nstruct S { Int x }" "" "" }
    ∃ root root', (r.parseBy ⟨.flat, reservedWords, .none⟩).2 = .ok root ∧
      (r'.parseBy ⟨.flat, reservedWords, .none⟩).2 = .ok root' ∧ root'.node.same root.node = true ∧
      Option.Rel (Node.FurtherOn 2 8 root.source root'.source)
        (Node.descendant? [1, 0] root.node) (Node.descendant? [1, 0] root'.node) ∧
      (Node.descendant? [1, 0] root'.node).map (fun n => root'.source.span n.range) =
        some ⟨4, 12, 4, 17, 31, 36⟩ := by
  intro r r'
  have layout : ∀ l ∈ [['#', ' ', 'é'], [' ', '\t']], LayoutLine l := by
    intro l mem
    rcases List.mem_cons.1 mem with rfl | mem
    · show LayoutLine ([] ++ '#' :: [' ', 'é'])
      exact .comment (by simp) (by simp)
    · obtain rfl := List.mem_singleton.1 mem
      exact .blank (by simp)
  have text : r'.source.chars =
      linesText [['#', ' ', 'é'], [' ', '\t']] ++ r.source.chars := by decide +kernel
  have bytes : (String.ofList (linesText [['#', ' ', 'é'], [' ', '\t']])).utf8ByteSize = 8 := by
    decide +kernel
  have found : ((r'.parseBy ⟨.flat, reservedWords, .none⟩).2.toOption.bind fun root' =>
      (Node.descendant? [1, 0] root'.node).map fun n => root'.source.span n.range) =
        some ⟨4, 12, 4, 17, 31, 36⟩ := by decide +kernel
  obtain ⟨root', given', found⟩ := Option.bind_eq_some_iff.1 found
  have given' := toOption_eq_some.1 given'
  obtain ⟨together, further⟩ := parseBy_preamble ⟨.flat, reservedWords, .none⟩ layout
    (show r.start = .document from rfl) (show r'.start = .document from rfl) text
  obtain ⟨root, given⟩ := together.1 ⟨root', given'⟩
  obtain ⟨same, below⟩ := further root root' given given'
  rw [bytes] at below
  exact ⟨root, root', given, given', same, below [1, 0] (by simp), found⟩

end Request

end Wdl
