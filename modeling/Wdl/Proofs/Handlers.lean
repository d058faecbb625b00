import Wdl.Log.Layout
import Wdl.Proofs.Notations

/-!
# Wdl.Proofs.Handlers -- which handlers write what they would write alone

Handlers share the record they are given, and a handler of the JSON layout leaves the message of a
structured record as the members it wrote (`Layout.leave`). It writes the same for them again, so it
does not matter to further handlers of its layout. Any other handler behind it writes the members as
a mapping. That is never the text of the message with its fields: the mapping holds the text between
marks, and so cannot start with it.

* `foldl_leave` is the run over some handlers: the record is changed once if one of them is a JSON
  handler, and not at all otherwise.
* `render_ne_members` compares the mapping with the text. It comes down to `quoted_ne`, by counting
  what stands in front of the first double mark.
* `getElem?_lines` says what each of several handlers writes, and `getElem?_lines_alone_iff` that it
  is what the handler would write alone if and only if its layout is JSON, there is no JSON handler
  before it, or the message is not structured. `lines_alone_iff` is about all of them.

The colored layout is on the side of the plain one: it writes the message in the style of its
severity, and messages in one style differ if their texts do (`styledMessage_inj`).
-/

namespace Wdl

/-! ## Quoted texts

A text is written between apostrophes unless it has one and no double mark. Escapes never hold a
double mark, so a double mark in what is written is one of the text or one around it. -/

/-- A text is written between two marks. -/
theorem toList_quoted (s : String) : (quoted s).toList = markFor s.toList ::
    (s.toList.flatMap (quotedChar (markFor s.toList)) ++ [markFor s.toList]) := by
  rw [quoted, String.toList_ofList, List.cons_append]

/-- No digit is a mark. -/
theorem mark_notMem_toDigits (n : Nat) : '"' ∉ Nat.toDigits 16 n := by
  intro mem
  have digits : ∀ c ∈ digitChars 16 n, isHexDigit c = true :=
    digitChars_each (by decide) (fun k h => by rw [isHexDigit, hexDigit?_digitOf h]; rfl) n
  cases digits _ (List.mem_map_of_mem (f := Char.toUpper) mem)

/-- No number with zeros in front has a mark. -/
theorem mark_notMem_hexPadded (width n : Nat) : '"' ∉ hexPadded width n := by
  unfold hexPadded
  rw [List.mem_append, not_or]
  refine ⟨fun mem => ?_, mark_notMem_toDigits n⟩
  cases List.eq_of_mem_replicate mem

/-- Between apostrophes, no other character is written with a double mark. -/
theorem mark_notMem_quotedChar {c : Char} (other : c ≠ '"') : '"' ∉ quotedChar '\'' c := by
  unfold quotedChar
  split
  · simp [Ne.symm other]
  split
  · decide
  split
  · decide
  split
  · decide
  split
  · simp [Ne.symm other]
  unfold codePointEscape
  split
  · simp [mark_notMem_hexPadded]
  split
  · simp [mark_notMem_hexPadded]
  · simp [mark_notMem_hexPadded]

/-- Every character is written with one character at least. -/
theorem length_le_quotedChars (mark : Char) (cs : List Char) :
    cs.length ≤ (cs.flatMap (quotedChar mark)).length := by
  have filled (c : Char) : 1 ≤ (quotedChar mark c).length := by
    unfold quotedChar codePointEscape
    repeat' split
    all_goals simp
  induction cs with
  | nil => exact Nat.le_refl 0
  | cons c cs ih =>
    have first := filled c
    rw [List.flatMap_cons, List.length_append, List.length_cons]
    omega

/-- Up to the first double mark stands what is in front of it. -/
theorem takeWhile_mark {front : List Char} (free : '"' ∉ front) (rest : List Char) :
    (front ++ '"' :: rest).takeWhile (· != '"') = front := by
  rw [List.takeWhile_append_of_pos, List.takeWhile_cons_of_neg (by simp), List.append_nil]
  intro c hc
  rw [bne_iff_ne]
  rintro rfl
  exact free hc

/-- A text does not go on as it is written between marks, if what it starts with holds an apostrophe
and no double mark: the first double mark, which is the one around the text if there is none in it,
stands further on where it is written. -/
theorem quoted_ne {head tail rest next : List Char} (apostrophe : '\'' ∈ head) (free : '"' ∉ head)
    (other : '"' ∉ next.head?) :
    (quoted (String.ofList (head ++ tail))).toList ++ rest ≠ tail ++ next := by
  intro eq
  rw [toList_quoted, String.toList_ofList] at eq
  -- the first double mark is in the text, or else it is the one in front of it
  by_cases double : '"' ∈ tail
  · have mark : markFor (head ++ tail) = '\'' := by simp [markFor, double]
    obtain ⟨front, behind, rfl, first⟩ := List.eq_append_cons_of_mem double
    have itself : quotedChar '\'' '"' = ['"'] := by decide
    have written : '"' ∉ '\'' :: (head ++ front).flatMap (quotedChar '\'') := by
      rw [List.mem_cons, List.mem_flatMap, not_or]
      refine ⟨by decide, ?_⟩
      rintro ⟨c, hc, mem⟩
      refine mark_notMem_quotedChar ?_ mem
      rintro rfl
      rw [List.mem_append] at hc
      exact hc.elim free first
    have eq : '\'' :: (head ++ front).flatMap (quotedChar '\'') ++
        '"' :: (behind.flatMap (quotedChar '\'') ++ '\'' :: rest) =
          front ++ '"' :: (behind ++ next) := by
      simpa [mark, itself] using eq
    have same := congrArg (List.takeWhile (· != '"')) eq
    rw [takeWhile_mark written, takeWhile_mark first] at same
    have longer := length_le_quotedChars '\'' (head ++ front)
    have length := congrArg List.length same
    rw [List.length_cons] at length
    rw [List.length_append] at longer
    omega
  · have mark : markFor (head ++ tail) = '"' := by simp [markFor, apostrophe, free, double]
    rw [mark] at eq
    cases tail with
    | nil => exact other (by rw [← List.nil_append next, ← eq]; rfl)
    | cons c tail =>
      rw [List.cons_append] at eq
      exact double ((List.cons.inj eq).1 ▸ List.mem_cons_self)

/-! ## What a JSON handler leaves -/

namespace LogMessage

/-- A text with fields. -/
def IsStructured (m : LogMessage) : Prop := ∃ text fields, m = .structured text fields

end LogMessage

namespace Layout

/-- Fields that are added stand behind those that were there. -/
theorem exists_addFields (fields more : LogFields) :
    ∃ kept, addFields fields more = fields ++ kept := by
  induction more generalizing fields with
  | nil => exact ⟨[], (List.append_nil fields).symm⟩
  | cons f more ih =>
    unfold addFields
    rw [List.foldl_cons]
    split
    · exact ih fields
    · obtain ⟨kept, eq⟩ := ih (fields ++ [f])
      exact ⟨f :: kept, by rw [← addFields, eq, List.append_assoc, List.singleton_append]⟩

/-- What the members of a structured message start with, up to its text. -/
def opening (severity : Severity) : List Char :=
  ("\x7b'level': '" ++ severity.name ++ "', 'message': ").toList

/-- The mapping of a structured message starts with its severity and goes on with its quoted text.
-/
theorem render_messageFields (severity : Severity) (text : String) (fields : LogFields) :
    ∃ rest, (LogMessage.members (messageFields severity (.structured text fields))).render.toList =
      opening severity ++ ((quoted text).toList ++ rest) := by
  obtain ⟨kept, eq⟩ := exists_addFields [("level", .text severity.name), ("message", .text text)]
    fields
  have level : ('\x7b' :: (quoted "level" ++ ": " ++ quoted severity.name).toList) ++
      ", ".toList ++ (quoted "message" ++ ": ").toList = opening severity := by
    cases severity <;> decide +kernel
  refine
    ⟨(((Datum.innerMembers kept).map String.toList).flatMap (", ".toList ++ ·)) ++ ['\x7d'], ?_⟩
  rw [← level, messageFields, eq]
  show ("\x7b" ++ ", ".intercalate (Datum.innerMembers (_ :: _ :: kept)) ++ "\x7d").toList = _
  rw [Datum.innerMembers, Datum.innerMembers, String.toList_append, String.toList_append,
    String.toList_intercalate, List.map_cons, List.map_cons, intercalate_cons, List.flatMap_cons]
  simp [Datum.inner]

/-- The mapping of its members is never the text of a structured message with its fields. -/
theorem render_ne_members (severity : Severity) (text : String) (fields : LogFields) :
    (LogMessage.members (messageFields severity (.structured text fields))).render ≠
      (LogMessage.structured text fields).render := by
  intro same
  obtain ⟨rest, members⟩ := render_messageFields severity text fields
  obtain ⟨more, plain⟩ : ∃ more, (LogMessage.structured text fields).render.toList =
      text.toList ++ ' ' :: ':' :: more := by
    rw [LogMessage.render, String.toList_append, String.toList_append, List.append_assoc]
    exact ⟨_, rfl⟩
  rw [same, plain] at members
  rcases List.append_eq_append_iff.1 members with ⟨tail, start, eq⟩ | ⟨tail, start, eq⟩
  · -- The text ends within the opening, where no space stands in front of a colon.
    have apart : ¬ [' ', ':'] <:+: opening severity := by cases severity <;> decide +kernel
    have mark : markFor text.toList ≠ ' ' ∧ markFor text.toList ≠ ':' := by
      unfold markFor
      split
      · decide
      · decide
    rw [toList_quoted] at eq
    rcases tail with _ | ⟨c, _ | ⟨d, tail⟩⟩
    · exact mark.1 (List.cons.inj eq).1.symm
    · exact mark.2 (List.cons.inj (List.cons.inj eq).2).1.symm
    · rw [← (List.cons.inj eq).1, ← (List.cons.inj (List.cons.inj eq).2).1] at start
      exact apart ⟨text.toList, tail, by rw [start, List.append_assoc]; rfl⟩
  · have apostrophe : '\'' ∈ opening severity := by cases severity <;> decide +kernel
    have free : '"' ∉ opening severity := by cases severity <;> decide +kernel
    have other : '"' ∉ (' ' :: ':' :: more).head? := by simp
    have whole : text = String.ofList (opening severity ++ tail) := by
      rw [← start, String.ofList_toList]
    rw [whole] at eq
    exact quoted_ne apostrophe free other eq

/-! ## Lines -/

variable {time : Datum} {layout : Layout} {r : LogRecord} {layouts : List Layout}

/-- A handler of another layout leaves a record as it is. -/
theorem leave_of_ne (other : layout ≠ .json) (r : LogRecord) : leave layout r = r := by
  cases layout with
  | plain => rfl
  | colored => rfl
  | json => exact absurd rfl other

/-- A message without fields is left as it is. -/
theorem leave_unstructured (plain : ¬r.message.IsStructured) (layout : Layout) :
    leave layout r = r := by
  unfold leave
  split
  · rename_i text fields eq
    exact absurd ⟨text, fields, eq⟩ plain
  · rfl

/-- A JSON handler leaves no message with fields. -/
theorem unstructured_leave (r : LogRecord) : ¬(leave .json r).message.IsStructured := by
  unfold leave
  split
  · rintro ⟨text, fields, eq⟩
    cases eq
  · rename_i other
    rintro ⟨text, fields, eq⟩
    exact other text fields rfl eq

/-- The fields that a JSON handler writes are those it would write for the members it leaves. -/
theorem jsonFields_leave (time : Datum) (r : LogRecord) :
    jsonFields time (leave .json r) = jsonFields time r := by
  unfold leave
  split
  · rfl
  · rfl

/-- The record as some handlers leave it, one behind the other. -/
theorem foldl_leave (layouts : List Layout) (r : LogRecord) :
    layouts.foldl (fun r layout => leave layout r) r =
      if .json ∈ layouts then leave .json r else r := by
  induction layouts generalizing r with
  | nil => rfl
  | cons layout layouts ih =>
    rw [List.foldl_cons, ih]
    by_cases json : layout = .json
    · subst json
      simp [leave_unstructured (unstructured_leave r)]
    · rw [leave_of_ne json]
      simp [Ne.symm json]

/-- Every handler writes the record as the ones before it leave it. -/
theorem getElem?_lines (time : Datum) (layouts : List Layout) (r : LogRecord) (i : Nat) :
    (lines time layouts r)[i]? = layouts[i]?.map fun layout =>
      line time layout (if .json ∈ layouts.take i then leave .json r else r) := by
  rw [← foldl_leave]
  induction layouts generalizing r i with
  | nil => rfl
  | cons layout layouts ih =>
    cases i with
    | zero => rfl
    | succ i => exact ih _ i

/-- A JSON handler writes the same for what another one leaves. -/
theorem line_leave_json (time : Datum) (r : LogRecord) :
    line time .json (leave .json r) = line time .json r := by
  rw [line, line, jsonFields_leave]

/-- Messages in the same style are the same if their texts are. -/
theorem styledMessage_inj {severity : Severity} {a b : String}
    (h : styledMessage severity a = styledMessage severity b) : a = b := by
  unfold styledMessage at h
  split at h
  · unfold styled at h
    rwa [String.append_left_inj, String.append_right_inj] at h
  · exact h

/-- Behind a JSON handler, handlers of other layouts write something else for a message with
fields. -/
theorem line_leave_ne (structured : r.message.IsStructured) (other : layout ≠ .json) :
    line time layout (leave .json r) ≠ line time layout r := by
  obtain ⟨source, severity, message⟩ := r
  obtain ⟨text, fields, rfl⟩ := structured
  have differ := render_ne_members severity text fields
  intro same
  cases layout with
  | plain =>
    have lines := congrArg String.toList same
    simp only [line, leave, String.toList_intercalate, List.map_cons, List.map_nil,
      List.intercalate_cons_cons, List.intercalate_singleton, List.append_cancel_left_eq,
      String.toList_inj] at lines
    exact differ lines
  | colored =>
    have lines := congrArg String.toList same
    simp only [line, leave, String.toList_intercalate, List.map_cons, List.map_nil,
      List.intercalate_cons_cons, List.intercalate_singleton, List.append_cancel_left_eq,
      String.toList_inj] at lines
    exact differ (styledMessage_inj lines)
  | json => exact other rfl

/-- A handler writes what it would write if it were the only one, just if the message has no fields,
its own layout is JSON, or no handler before it is a JSON handler. -/
theorem getElem?_lines_alone_iff {i : Nat} (here : layouts[i]? = some layout) :
    (lines time layouts r)[i]? = some (line time layout r) ↔
      (r.message.IsStructured → .json ∈ layouts.take i → layout = .json) := by
  rw [getElem?_lines, here, Option.map_some, Option.some_inj]
  constructor
  · intro same structured before
    rw [if_pos before] at same
    by_contra other
    exact line_leave_ne structured other same
  · intro h
    split
    · rename_i before
      by_cases structured : r.message.IsStructured
      · rw [h structured before]
        exact line_leave_json time r
      · rw [leave_unstructured structured]
    · rfl

/-- All handlers write what they would write alone, just if the message has no fields or no handler
of another layout stands behind a JSON handler. -/
theorem lines_alone_iff : lines time layouts r = layouts.map (line time · r) ↔
    (r.message.IsStructured →
      layouts.Pairwise fun before layout => before = .json → layout = .json) := by
  constructor
  · intro same structured
    rw [List.pairwise_iff_getElem]
    intro i j hi hj less before
    have here : layouts[j]? = some layouts[j] := List.getElem?_eq_getElem hj
    have written : (lines time layouts r)[j]? = some (line time layouts[j] r) := by
      rw [same, List.getElem?_map, here]
      rfl
    apply (getElem?_lines_alone_iff here).1 written structured
    rw [List.mem_take_iff_getElem]
    exact ⟨i, by omega, before⟩
  · intro apart
    apply List.ext_getElem?
    intro i
    rw [List.getElem?_map]
    cases here : layouts[i]? with
    | none =>
      rw [getElem?_lines, here]
      rfl
    | some layout =>
      apply (getElem?_lines_alone_iff here).2
      intro structured before
      obtain ⟨j, hj, eq⟩ := List.mem_take_iff_getElem.1 before
      obtain ⟨hi, rfl⟩ := List.getElem?_eq_some_iff.1 here
      exact List.pairwise_iff_getElem.1 (apart structured) j i (by omega) hi (by omega) eq

/-- Behind a JSON handler, a plain one writes the fields as a mapping. -/
example : (lines (.text "12:00") [.json, .plain]
    ⟨"wdlast", .info, .structured "hello" [("x", .int 1)]⟩)[1]? =
      some "12:00 wdlast INFO \x7b'level': 'INFO', 'message': 'hello', 'x': 1\x7d" := by
  decide +kernel

end Layout

end Wdl
