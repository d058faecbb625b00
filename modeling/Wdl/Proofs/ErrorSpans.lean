import Mathlib.Data.List.Infix
import Wdl.Proofs.Coordinates
import Wdl.Proofs.Traces
import Wdl.Request

/-!
# Wdl.Proofs.ErrorSpans -- where the errors of a text are

A text that is rejected is rejected somewhere in it. Both ends of the span that is reported are
positions of the text, in this order, and the same positions by line and column as by offset: for
errors of the grammar, which may be reported at the line feed that is added to a text, as well as
for violations, which never are. A token that is rejected is reported up to its first whitespace.

* `firstWordLength` cuts a token that is rejected at its first whitespace; `not_blank_firstWord`
  says that it does. `Rejection.On.range_between` and `Rejection.On.word` are the two facts about
  the range of a rejection.
* `Span.Inside span s i j` is what it is for a span to lie in a source text `s`: it `Denotes` the
  positions `i` and `j`, and these are found again from its lines and columns.
  `SourceText.span_inside` has it of every range whose ends are in order.
* `Request.recognize` says whether the text of a request is in the grammar, so that the two kinds of
  errors can be told apart without looking at the error.
* `Request.rejected_inside` is the result. It rests on `Request.rejected_traced`, which puts the
  results of `Wdl.Proofs.Traces` for documents and for expressions together.
-/

namespace Wdl

open Wdl.Parser

/-! ## Words -/

/-- A token that is cut is not longer than it was, unless there was none. -/
theorem firstWordLength_le (n : Nat) {cs : List Char} (ne : cs ≠ []) :
    firstWordLength n cs ≤ cs.length := by
  have pos := List.length_pos_of_ne_nil ne
  have run := Scan.runLength_le (!isBlank ·) ((cs.take n).drop 1)
  rw [List.length_drop, List.length_take] at run
  rw [firstWordLength]
  omega

/-- Behind its first character, a token that is cut has no whitespace. -/
theorem not_blank_firstWord (n : Nat) (cs : List Char) :
    ∀ c ∈ (cs.take (firstWordLength n cs)).tail, isBlank c = false := by
  have behind : ∀ k ≤ ((cs.take n).drop 1).length,
      (cs.take (k + 1)).tail = ((cs.take n).drop 1).take k := by
    intro k le
    rw [List.length_drop, List.length_take] at le
    rw [← List.drop_one, List.drop_take, List.drop_take, List.take_take, Nat.add_sub_cancel,
      Nat.min_eq_left (by omega)]
  intro c hc
  rw [firstWordLength, behind _ (Scan.runLength_le _ _), Numeral.take_runLength] at hc
  simpa using List.all_eq_true.1 List.all_takeWhile c hc

/-! ## Rejections -/

namespace Rejection

variable {cs : List Char} {r : Rejection}

/-- A rejection is reported in the text. -/
theorem On.range_between (h : r.On cs) (fe : FrontEnd) (ne : cs ≠ []) :
    (r.range fe).Between 0 cs.length := by
  cases r with
  | unexpected token =>
    -- a token has a first character, so that no more is shown of it than there is
    have pos := h.pos
    have le := h.le
    have stop : token.stop = token.start + token.chars.length := rfl
    have cut := firstWordLength_le token.chars.length (List.ne_nil_of_length_pos
      (show 0 < token.chars.length by omega))
    exact ⟨Nat.zero_le _, Nat.le_add_right _ _, show _ + _ ≤ _ by omega⟩
  | unfinished last =>
    cases last with
    | none => exact ⟨Nat.zero_le _, Nat.zero_le _, List.length_pos_of_ne_nil ne⟩
    | some r => exact h r rfl
  | stray place =>
    obtain ⟨on, rest⟩ := h
    have cut := firstWordLength_le (fe.strayLength place.rest) rest
    have length := congrArg List.length on.eq
    rw [List.length_drop] at length
    have le := on.le
    exact ⟨Nat.zero_le _, Nat.le_add_right _ _, show _ + _ ≤ _ by omega⟩

/-- What is rejected before the end of the text is reported as one word. -/
theorem On.word (h : r.On cs) (fe : FrontEnd) (inside : ∀ last, r ≠ .unfinished last) :
    ∀ c ∈ ((cs.drop (r.range fe).start).take ((r.range fe).stop - (r.range fe).start)).tail,
      isBlank c = false := by
  cases r with
  | unexpected token =>
    have pos := h.pos
    have stop : token.stop = token.start + token.chars.length := rfl
    have cut := firstWordLength_le token.chars.length (List.ne_nil_of_length_pos
      (show 0 < token.chars.length by omega))
    have word := not_blank_firstWord token.chars.length token.chars
    rw [h.eq, List.take_take, ← h.eq, Nat.min_eq_left cut] at word
    rwa [range, Nat.add_sub_cancel_left]
  | unfinished last => exact absurd rfl (inside last)
  | stray place =>
    have word := not_blank_firstWord (fe.strayLength place.rest) place.rest
    rw [range, Nat.add_sub_cancel_left, ← h.1.eq]
    exact word

end Rejection

/-! ## Spans -/

/-- A span lies in a text: its ends are two positions of the text, in this order, and the same two
positions by line and column as by offset. -/
structure Span.Inside (span : Span) (s : SourceText) (i j : Nat) : Prop where
  denotes : span.Denotes s.chars i j
  start_eq : s.charPos span.line span.column = i
  end_eq : s.charPos span.endLine span.endColumn = j
  offset_le : span.offset ≤ span.endOffset
  endOffset_le : span.endOffset ≤ s.text.utf8ByteSize
  ordered : toLex (span.line, span.column) ≤ toLex (span.endLine, span.endColumn)

namespace SourceText

variable (s : SourceText) {r : Range}

/-- Clamping keeps the order of positions. -/
theorem clamp_mono {i j : Nat} (h : i ≤ j) : s.clamp i ≤ s.clamp j := by
  simp only [clamp, Int.toNat_natCast]
  omega

/-- The span of a range whose ends are in order lies in the text. -/
theorem span_inside (ordered : r.start ≤ r.stop) :
    (s.span r).Inside s (s.clamp r.start) (s.clamp r.stop) := by
  have start := s.clamp_le r.start
  have stop := s.clamp_le r.stop
  have le := s.clamp_mono ordered
  have denotes : (s.span r).Denotes s.chars (s.clamp r.start) (s.clamp r.stop) := by
    refine ⟨le, stop, ?_, ?_, ?_, ?_, s.byteOffset_nearest _, s.byteOffset_nearest _⟩ <;>
      simp only [span, spanBetween, lineColumn_nearest]
  refine ⟨denotes, ?_, ?_, ?_, ?_, ?_⟩
  · rw [denotes.line_eq, denotes.column_eq, s.charPos_lineColumn start]
  · rw [denotes.endLine_eq, denotes.endColumn_eq, s.charPos_lineColumn stop]
  · rw [denotes.offset_eq, denotes.endOffset_eq]
    exact bytesBefore_mono s.chars le
  · rw [denotes.endOffset_eq]
    exact bytesBefore_le s.chars _
  · rw [denotes.line_eq, denotes.column_eq, denotes.endLine_eq, denotes.endColumn_eq]
    exact s.coordinates_strictMono.monotoneOn start stop le

/-- Positions behind the end of a text cut nothing more out of it. -/
theorem piece_span (ordered : r.start ≤ r.stop) :
    s.piece (s.span r) = String.ofList ((s.chars.drop r.start).take (r.stop - r.start)) := by
  rw [s.piece_eq (s.span_inside ordered).denotes]
  congr 1
  simp only [clamp, Int.toNat_natCast, s.length_eq]
  by_cases start : r.start ≤ s.chars.length
  · rw [Nat.min_eq_left start, List.take_eq_take_iff, List.length_drop]
    omega
  · -- behind the end there is nothing to cut
    rw [List.drop_of_length_le (show _ ≤ min _ _ by omega), List.drop_of_length_le (by omega)]
    simp

end SourceText

/-! ## Requests -/

/-- A line feed is all that is added to a text. -/
theorem length_terminated_le (cs : List Char) : (terminated cs).length ≤ cs.length + 1 := by
  unfold terminated
  split
  · exact Nat.le_succ _
  · simp

theorem terminated_ne_nil (cs : List Char) : terminated cs ≠ [] := by
  unfold terminated
  split
  · rintro rfl
    contradiction
  · simp

/-- Positions of the text are the same positions where a line feed is added. -/
theorem prefix_terminated (cs : List Char) : cs <+: terminated cs := by
  unfold terminated
  split
  · exact List.prefix_rfl
  · exact List.prefix_append _ _

/-- Whether the text of a request is in the grammar of a front end. -/
def Request.recognize (fe : FrontEnd) (r : Request) : Except Rejection Unit :=
  match r.start with
  | .document => (Surface.Document.parse fe.next r.source.chars).map fun _ => ()
  | .expr => (Surface.Expr.parse fe.next r.source.chars).map fun _ => ()

variable {rules : Rules} {r : Request} {source : SourceText} {e : ParseError}

/-- A request that is rejected is rejected for what its parse reports. -/
theorem Request.finish_eq_error {α : Type} {p : Parsed α} {node : α → Node}
    {elements : α → Option Nat}
    (h : (r.finish rules p node elements).2 = .error (.rejected source e)) :
    source = r.source ∧ p.result = .error e := by
  unfold finish at h
  cases result : p.result with
  | error e' =>
    rw [result] at h
    cases h
    exact ⟨rfl, rfl⟩
  | ok x =>
    rw [result] at h
    cases h

/-- A text is rejected by its grammar at a place of it, or for a violation in it. -/
theorem Request.rejected_traced (h : (r.parseBy rules).2 = .error (.rejected source e)) :
    source = r.source ∧
      ((∃ x, r.recognize rules.frontEnd = .error x ∧ x.On (terminated source.chars) ∧
          e = .syntaxError rules.frontEnd (x.range rules.frontEnd)) ∨
        ∃ v, r.recognize rules.frontEnd = .ok () ∧
          v.Traced (terminated source.chars) source.chars.length ∧
            e = .violated rules.frontEnd v) := by
  cases start : r.start with
  | document =>
    simp only [parseBy, start] at h
    simp only [recognize, start]
    obtain ⟨rfl, failed⟩ := finish_eq_error h
    refine ⟨rfl, ?_⟩
    rcases parseDocument_traced failed with ⟨x, rejected, on, eq⟩ | ⟨d, v, parsed, traced, eq⟩
    · exact .inl ⟨x, by rw [rejected]; rfl, on, eq⟩
    · exact .inr ⟨v, by rw [parsed]; rfl, traced, eq⟩
  | expr =>
    simp only [parseBy, start] at h
    simp only [recognize, start]
    obtain ⟨rfl, failed⟩ := finish_eq_error h
    refine ⟨rfl, ?_⟩
    rcases parseExpr_traced failed with ⟨x, rejected, on, eq⟩ | ⟨σ, v, parsed, traced, eq⟩
    · exact .inl ⟨x, by rw [rejected]; rfl, on, eq⟩
    · exact .inr ⟨v, by rw [parsed]; rfl, traced, eq⟩

/-- The error of a text that is rejected, as a document or as an expression, has its span in the
text. A text that is not in the grammar is rejected there or at the line feed that is added to it,
and what is rejected before its end is shown as one word. A violation does not reach behind the
text. -/
theorem Request.rejected_inside (h : (r.parseBy rules).2 = .error (.rejected source e)) :
    source = r.source ∧ e.range.start ≤ e.range.stop ∧
      (source.span e.range).Inside source (source.clamp e.range.start)
        (source.clamp e.range.stop) ∧
      ((∃ x, r.recognize rules.frontEnd = .error x ∧
          e = .syntaxError rules.frontEnd (x.range rules.frontEnd) ∧
          e.range.stop ≤ source.chars.length + 1 ∧
          ((∀ last, x ≠ .unfinished last) →
            ∀ c ∈ (source.piece (source.span e.range)).toList.tail, isBlank c = false)) ∨
        ∃ v, r.recognize rules.frontEnd = .ok () ∧ e = .violated rules.frontEnd v ∧
          e.range.stop ≤ source.chars.length) := by
  obtain ⟨eq, ⟨x, rejected, on, rfl⟩ | ⟨v, accepted, traced, rfl⟩⟩ := rejected_traced h
  · have range := on.range_between rules.frontEnd (terminated_ne_nil _)
    have stop := Nat.le_trans range.stop (length_terminated_le _)
    refine ⟨eq, range.ordered, source.span_inside range.ordered,
      .inl ⟨x, rejected, rfl, stop, fun inside c hc => on.word rules.frontEnd inside c ?_⟩⟩
    rw [ParseError.range, source.piece_span range.ordered, String.toList_ofList] at hc
    -- what is cut out of the text is a front of what is cut out of it with its line feed
    have cut := List.IsPrefix.take (List.IsPrefix.drop (prefix_terminated source.chars)
      (x.range rules.frontEnd).start)
      ((x.range rules.frontEnd).stop - (x.range rules.frontEnd).start)
    rw [← List.drop_one] at hc ⊢
    exact (List.IsPrefix.drop cut 1).subset hc
  · exact ⟨eq, traced.range.ordered, source.span_inside traced.range.ordered,
      .inr ⟨v, accepted, rfl, traced.range.stop⟩⟩

/-- Behind the string `"é"` no word is looked for: it is shown up to its end. -/
theorem Request.rejected_inside_behind_accent :
    let source : SourceText :=
      { chars := ['"', 'é', '"', ' ', 'y', 'o', ' ', 'u'], uri := "", abspath := "" }
    ∃ e, (Request.parseBy ⟨.flat, [], .none⟩ ⟨.expr, source, none⟩).2 =
      .error (.rejected source e) ∧
      source.span e.range = ⟨1, 5, 1, 7, 5, 7⟩ ∧ (source.span e.range).Inside source 4 6 := by
  intro source
  have found : (match (parseExpr ⟨.flat, [], .none⟩ source).result with
      | .error e => some e
      | .ok _ => none) = some (.syntaxError .flat ⟨4, 6⟩) := by
    decide +kernel
  have rejected : (Request.parseBy ⟨.flat, [], .none⟩ ⟨.expr, source, none⟩).2 =
      .error (.rejected source (.syntaxError .flat ⟨4, 6⟩)) := by
    split at found
    · rename_i e failed
      cases found
      change (Request.finish ⟨.expr, source, none⟩ ⟨.flat, [], .none⟩
        (parseExpr ⟨.flat, [], .none⟩ source) .expr fun _ => none).2 = _
      rw [Request.finish, failed]
    · cases found
  exact ⟨_, rejected, by decide +kernel, (rejected_inside rejected).2.2.1⟩

end Wdl
