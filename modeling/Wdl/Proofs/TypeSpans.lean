import Wdl.Proofs.ErrorSpans
import Wdl.Proofs.Rebuilding
import Wdl.Proofs.TypeRendering

/-!
# Wdl.Proofs.TypeSpans -- what a type spans, it says

The text of a type, cut out of its document and written as the type of a struct member, declares the
same type again; with one exception. The span of an array ends where its mark starts, with which it
is said that the array must not be empty. So the text of an array says that it may be empty.

* `TypeSteps.move` moves the steps of a type, `Parser.TypeSteps.writes` writes them wherever they
  are wanted.
* `TypeSteps.split` tells a type from its mark. `Ty.unmarked` is an array type without the mark, and
  `Ty.isMarked` are those that have it.
* `StructFrame.declares_whole` is for types that span all their tokens, and
  `StructFrame.declares_short` for those that span all but the mark. `Parser.TypeOrigin.declares`
  finds out which of the two it is.
-/

namespace Wdl

open Scan
open Wdl.Parser (Mark Step TypeSteps)

variable {f : Nat → Nat}

/-! ## The same type at another place

As for expressions, in `Wdl.Proofs.Transposition`: steps may be moved if each token keeps its
length. -/

namespace Parser

namespace Mark

/-- The mark at another place. -/
def move (f : Nat → Nat) (m : Mark) : Mark := m.map fun p => (p.1, p.2.move f)

theorem steps_move (m : Mark) : (m.move f).steps = m.steps.map (Step.move f) := by
  cases m <;> rfl

theorem quantifier_move (m : Mark) :
    (m.move f).quantifier = m.quantifier.map fun q => (q.1, f q.2) := by
  cases m <;> rfl

theorem Fits.move {m : Mark} (h : m.Fits) : (m.move f).Fits := by
  cases m with
  | none => simp [Mark.move, Mark.Fits]
  | some p =>
    rintro _ ⟨⟩
    exact h p rfl

theorem stop_move {m : Mark} (keeps : ∀ x ∈ m.steps, x.Keeps f) (stop : Nat) :
    (m.move f).stop (f stop) = f (m.stop stop) := by
  cases m with
  | none => rfl
  | some p => exact (keeps ⟨p.2, Expect.afterType⟩ (by simp [steps])).stop_move

end Mark

/-- Moved steps write the type at another place. -/
theorem TypeSteps.move {t : Surface.TypeExpr} {xs : List Step} (h : TypeSteps t xs)
    (keeps : ∀ x ∈ xs, x.Keeps f) : TypeSteps (t.move f) (xs.map (Step.move f)) := by
  induction h with
  | name t m kind fits =>
    obtain ⟨name, marks⟩ := List.forall_mem_cons.1 keeps
    have moved := TypeSteps.name (t.move f) (m.move f) kind fits.move
    rw [name.stop_move, Mark.stop_move marks, name.word_move, Mark.steps_move,
      Mark.quantifier_move] at moved
    exact moved
  | one t bracket close m kind opened closed fits _ ih =>
    obtain ⟨name, keeps⟩ := List.forall_mem_cons.1 keeps
    obtain ⟨first, keeps⟩ := List.forall_mem_append.1 (List.forall_mem_cons.1 keeps).2
    obtain ⟨last, marks⟩ := List.forall_mem_cons.1 keeps
    have moved := TypeSteps.one (t.move f) (bracket.move f) (close.move f) (m.move f) kind opened
      closed fits.move (ih first)
    rw [last.stop_move, Mark.stop_move marks, name.word_move, Mark.steps_move,
      Mark.quantifier_move] at moved
    simpa [Surface.TypeExpr.move, Surface.moveTypes, Range.move, Step.move, Token.move] using moved
  | two t bracket comma close m kind opened between closed fits _ _ ih ih' =>
    obtain ⟨name, keeps⟩ := List.forall_mem_cons.1 keeps
    obtain ⟨first, keeps⟩ := List.forall_mem_append.1 (List.forall_mem_cons.1 keeps).2
    obtain ⟨second, keeps⟩ := List.forall_mem_append.1 (List.forall_mem_cons.1 keeps).2
    obtain ⟨last, marks⟩ := List.forall_mem_cons.1 keeps
    have moved := TypeSteps.two (t.move f) (bracket.move f) (comma.move f) (close.move f)
      (m.move f) kind opened between closed fits.move (ih first) (ih' second)
    rw [last.stop_move, Mark.stop_move marks, name.word_move, Mark.steps_move,
      Mark.quantifier_move] at moved
    simpa [Surface.TypeExpr.move, Surface.moveTypes, Range.move, Step.move, Token.move] using moved

/-- A type is a type without a mark, and its mark. -/
theorem TypeSteps.split {t : Surface.TypeExpr} {xs : List Step} (h : TypeSteps t xs) :
    ∃ (r r' : Range) (name : Surface.Word) (ps : List Surface.TypeExpr) (m : Mark)
      (ys : List Step), t = .mk r name ps m.quantifier ∧ xs = ys ++ m.steps ∧
        r'.start = r.start ∧ TypeSteps (.mk r' name ps none) ys := by
  cases h with
  | name t m kind fits =>
    exact ⟨_, ⟨t.start, t.stop⟩, _, _, m, [⟨t, Expect.afterTypeName⟩], rfl, rfl, rfl,
      .name t none kind (by simp [Mark.Fits])⟩
  | one t bracket close m kind opened closed fits inner =>
    refine ⟨_, ⟨t.start, close.stop⟩, _, _, m, _, rfl, ?_, rfl,
      .one t bracket close none kind opened closed (by simp [Mark.Fits]) inner⟩
    simp [Mark.steps]
  | two t bracket comma close m kind opened between closed fits first second =>
    refine ⟨_, ⟨t.start, close.stop⟩, _, _, m, _, rfl, ?_, rfl,
      .two t bracket comma close none kind opened between closed (by simp [Mark.Fits]) first second⟩
    simp [Mark.steps]

end Parser

/-- What lexemes write in one place they write wherever they stand. -/
theorem Parser.TypeSteps.writes {t : Surface.TypeExpr} {a : Nat} {ls : List Lexeme} {T : Ty}
    (steps : TypeSteps t (stepsFrom a ls)) (built : Build.type t = .ok T) :
    WritesType ls T.view := by
  intro at_
  have moved := steps.move (keeps_from a at_ ls)
  rw [stepsFrom_from] at moved
  exact ⟨_, moved, _, Build.type_carries t T built, T.view_move⟩

/-! ## The text of a type

A type of a document was built from a whole piece of surface syntax, or it is what is below the mark
of an optional type. In each case its text ends at the mark or behind it. -/

/-- The type, without the mark that its arrays must not be empty if it is an array type itself. -/
def Ty.unmarked : Ty → Ty
  | .array r item _ => .array r item false
  | T => T

/-- Without its mark, a type is built as far as it goes without. -/
theorem plainType_unmarked {whole inner : Range} {name : String} {ps : List Ty} {nonempty : Bool}
    {T : Ty} (built : Build.plainType whole inner name ps nonempty = .ok T)
    (whole' inner' : Range) :
    ∃ T', Build.plainType whole' inner' name ps false = .ok T' ∧ T'.view = T.unmarked.view := by
  unfold Build.plainType at built ⊢
  by_cases array : name = Build.arrayWord
  · rw [if_pos array] at built ⊢
    split at built <;> cases built
    exact ⟨_, rfl, rfl⟩
  rw [if_neg array] at built ⊢
  split at built
  · cases built
  rw [if_neg (by simp)]
  by_cases map : name = Build.mapWord
  · rw [if_pos map] at built ⊢
    split at built <;> cases built
    exact ⟨_, rfl, rfl⟩
  rw [if_neg map] at built ⊢
  by_cases pair : name = Build.pairWord
  · rw [if_pos pair] at built ⊢
    split at built <;> cases built
    exact ⟨_, rfl, rfl⟩
  rw [if_neg pair] at built ⊢
  split at built
  · cases built
  · rename_i none
    rw [if_neg none]
    split at built <;> cases built <;> exact ⟨_, rfl, rfl⟩

/-- The text of a type, with the layout behind it, declares what its lexemes write. -/
theorem StructFrame.declares_cut {rules : Rules} {f : StructFrame} (fits : f.Fits rules)
    {written : String} {cs rest : List Char} (trail : List Char) {a stop : Nat} {ls : List Lexeme}
    {t : Surface.TypeExpr} {T U : Ty} (text : cs.drop a = spelled ls ++ (trail ++ rest))
    (proper : ∀ l ∈ ls, l.Proper) (layout : Gap false trail false)
    (steps : TypeSteps t (stepsFrom a ls)) (built : Build.type t = .ok U) (view : U.view = T.view)
    (ends : stop = a + (spelled ls).length + trail.length)
    (cut : written.toList = (cs.drop t.range.start).take (stop - t.range.start)) :
    f.Declares rules written T := by
  obtain ⟨l, ls, rfl⟩ := List.exists_cons_of_ne_nil (l := ls) (by
    rintro rfl
    exact steps.ne_nil rfl)
  have start : t.range.start = a + l.gap.length := by rw [steps.range_eq, spanOf_stepsFrom]
  -- the layout in front of the type is left out
  let first : Lexeme := ⟨[], l.kind, l.chars, l.after⟩
  have same : indented l.gap (first :: ls) = l :: ls := by simp [indented, first]
  have alone : TypeSteps t (stepsFrom (a + l.gap.length) (first :: ls)) := by
    rwa [← stepsFrom_indented, same]
  have spells : spelled (l :: ls) = l.gap ++ spelled (first :: ls) := by simp [first]
  have chars : written.toList = spelled (first :: ls) ++ trail := by
    rw [cut, start, ends, spells]
    have length : a + (l.gap ++ spelled (first :: ls)).length + trail.length - (a + l.gap.length) =
        (spelled (first :: ls) ++ trail).length := by
      simp only [List.length_append]
      omega
    have behind : cs.drop a = l.gap ++ ((spelled (first :: ls) ++ trail) ++ rest) := by
      rw [text, spells]
      simp only [List.append_assoc]
    rw [length]
    exact take_drop_eq behind
  refine f.declares_type fits trail chars layout ?_ fun at_ => ?_
  · rw [List.forall_mem_cons] at proper ⊢
    exact ⟨⟨.nil false, proper.1.name, proper.1.symbol⟩, proper.2⟩
  · obtain ⟨t', steps', T', built', view'⟩ := alone.writes built at_
    exact ⟨t', steps', T', built', View.same_iff.2 (congrArg View.normal (view'.trans view))⟩

/-- The tokens of a type are no literal text. -/
theorem Parser.TypeSteps.plain {t : Surface.TypeExpr} {a : Nat} {ls : List Lexeme}
    (steps : TypeSteps t (stepsFrom a ls)) : ∀ l ∈ ls, Parser.isLiteral l.kind = false := by
  have roles : (stepsFrom a ls).map Step.role = ls.map Lexeme.role := stepsFrom_map a ls
  have each : ∀ p ∈ typeTokens, Parser.isLiteral p.1 = false := by decide
  intro l hl
  exact each _ ((roles ▸ steps.typelike).tokens _ (List.mem_map_of_mem hl))

section Excerpts

variable {rules : Rules} {f : StructFrame} {written : String} {cs rest : List Char} {A : Expect}
  {a : Nat} {ls : List Lexeme} {t : Surface.TypeExpr} {T U : Ty}

/-- The text of all tokens of a type declares it. -/
theorem StructFrame.declares_whole (fits : f.Fits rules)
    (legible : Legible rules.frontEnd A ls rest) (text : cs.drop a = spelled ls ++ rest)
    (steps : TypeSteps t (stepsFrom a ls)) (built : Build.type t = .ok U) (view : U.view = T.view)
    (cut : written.toList = (cs.drop t.range.start).take (t.range.stop - t.range.start)) :
    f.Declares rules written T := by
  refine f.declares_cut fits [] text (legible.proper steps.plain) (.nil false) steps built
    view ?_ cut
  obtain ⟨l, ms, rfl⟩ := List.exists_cons_of_ne_nil (l := ls) (by
    rintro rfl
    exact steps.ne_nil rfl)
  rw [steps.range_eq, spanOf_stepsFrom]
  rfl

/-- The last of some steps is the step of the last lexeme. -/
theorem stepsFrom_eq_concat {ys : List Step} {x : Step} (h : stepsFrom a ls = ys ++ [x]) :
    ∃ ms l, ls = ms ++ [l] ∧ stepsFrom a ms = ys ∧ l.step (a + (spelled ms).length) = x := by
  rcases List.eq_nil_or_concat ls with rfl | ⟨ms, l, rfl⟩
  · cases ys <;> cases h
  · rw [List.concat_eq_append, stepsFrom_append] at h
    obtain ⟨front, last⟩ := List.append_inj' h rfl
    exact ⟨ms, l, List.concat_eq_append, front, (List.cons_eq_cons.1 last).1⟩

/-- The text of a type up to its mark declares the type without the mark. -/
theorem StructFrame.declares_short (fits : f.Fits rules)
    (legible : Legible rules.frontEnd A ls rest) (text : cs.drop a = spelled ls ++ rest)
    {ys : List Step} {token : Token} {after : Expect}
    (marked : stepsFrom a ls = ys ++ [⟨token, after⟩])
    (plain : ∀ l ∈ ls, Parser.isLiteral l.kind = false) (steps : TypeSteps t ys)
    (built : Build.type t = .ok U) (view : U.view = T.view)
    (cut : written.toList = (cs.drop t.range.start).take (token.start - t.range.start)) :
    f.Declares rules written T := by
  obtain ⟨ms, l, rfl, rfl, last⟩ := stepsFrom_eq_concat marked
  have mark : l.step (a + (spelled ms).length) = ⟨token, after⟩ := last
  obtain ⟨front, found, -⟩ := legible_append.1 legible
  have start : token.start = a + (spelled ms).length + l.gap.length :=
    congrArg (·.token.start) mark.symm
  have behind : cs.drop a = spelled ms ++ (l.gap ++ (l.chars ++ rest)) := by
    rw [text, spelled_append]
    simp
  exact f.declares_cut fits l.gap behind (front.proper steps.plain)
    (found.closed (plain l (by simp))) steps built view start cut

end Excerpts

/-- Without a mark, a type is built as what it is unmarked. -/
theorem plainType_view {whole inner : Range} {name : String} {ps : List Ty} {T : Ty}
    (built : Build.plainType whole inner name ps false = .ok T) : T.view = T.unmarked.view := by
  obtain ⟨T', same, view⟩ := plainType_unmarked built whole inner
  rw [built] at same
  cases same
  exact view

/-- A type, marked or not, and a type below its mark, are written by lexemes that are legible. -/
theorem Parser.TypeOrigin.legible {fe : FrontEnd} {cs : List Char} {T : Ty}
    (h : TypeOrigin fe cs T) : ∃ A a ls rest t U, Legible fe A ls rest ∧
      cs.drop a = spelled ls ++ rest ∧ TypeSteps t (stepsFrom a ls) ∧ Build.type t = .ok U ∧
        (U = T ∨ ∃ r, U = .optional r T) := by
  have read : ∀ {t : Surface.TypeExpr} {xs : List Step} {s s' : Parser.State}, s.Sound fe cs →
      Parser.Run fe.next s xs s' → TypeSteps t xs → ∃ A a ls rest, Legible fe A ls rest ∧
        cs.drop a = spelled ls ++ rest ∧ TypeSteps t (stepsFrom a ls) := by
    intro t xs s s' sound run steps
    obtain ⟨A, c, on, found⟩ := sound.found
    obtain ⟨ls, rest, legible, rfl, text, -⟩ := run.legible found
    exact ⟨A, c.pos, ls, rest, legible, on.eq.symm.trans text, steps⟩
  cases h with
  | whole sound run steps built =>
    obtain ⟨A, a, ls, rest, legible, text, steps⟩ := read sound run steps
    exact ⟨A, a, ls, rest, _, T, legible, text, steps, built, .inl rfl⟩
  | @inner t r T xs s s' sound run steps built =>
    obtain ⟨A, a, ls, rest, legible, text, steps⟩ := read sound run steps
    exact ⟨A, a, ls, rest, _, .optional r T, legible, text, steps, built, .inr ⟨r, rfl⟩⟩

/-- The text of a type of a document declares the type without its mark for arrays. -/
theorem Parser.TypeOrigin.declares {rules : Rules} {f : StructFrame} (fits : f.Fits rules)
    {cs : List Char} {T : Ty} (h : TypeOrigin rules.frontEnd cs T) {written : String}
    (cut : written.toList = (cs.drop T.range.start).take (T.range.stop - T.range.start)) :
    f.Declares rules written T.unmarked := by
  obtain ⟨A, a, ls, rest, t, U, legible, text, steps, built, same⟩ := h.legible
  obtain ⟨r, r', name, ps, m, ys, rfl, marked, start, front⟩ := steps.split
  obtain ⟨Ts, parameters, quantified⟩ := Build.type_eq_ok.1 built
  cases m with
  | none =>
    -- nothing is behind the type, and it is not optional
    have plain : Build.plainType r r name.text Ts false = .ok U := quantified
    obtain rfl : U = T := by
      obtain same | ⟨r', rfl⟩ := same
      · exact same
      · cases Build.plainType_isOptional plain
    rw [(Parser.plainType_eq_ok plain).1] at cut
    exact StructFrame.declares_whole fits legible text steps built (plainType_view plain) cut
  | some p =>
    obtain ⟨q, token⟩ := p
    obtain ⟨P, plain, ends⟩ := Build.bind_eq_ok.1 (show (do
      let plain ← Build.plainType r ⟨r.start, token.start⟩ name.text Ts (Build.isNonempty q)
      return if Build.isOptional q then Ty.optional r plain else plain) = .ok U from quantified)
    have range := (Parser.plainType_eq_ok plain).1
    have unmarked := Build.plainType_isOptional plain
    -- the text up to the mark
    have short : T = P → f.Declares rules written T.unmarked := by
      rintro rfl
      obtain ⟨P', built', view⟩ := plainType_unmarked plain r' r'
      rw [range, ← start] at cut
      exact StructFrame.declares_short fits legible text marked steps.plain front
        (Build.type_eq_ok.2 ⟨Ts, parameters, built'⟩) view cut
    by_cases optional : Build.isOptional q = true
    · rw [if_pos optional] at ends
      cases ends
      obtain rfl | ⟨_, same⟩ := same
      · exact StructFrame.declares_whole fits legible text steps built rfl cut
      · cases same
        exact short rfl
    · rw [if_neg optional] at ends
      cases ends
      obtain rfl | ⟨_, rfl⟩ := same
      · exact short rfl
      · cases unmarked

/-- The type is an array type with the mark. -/
def Ty.isMarked : Ty → Bool
  | .array _ _ nonempty => nonempty
  | _ => false

/-- A type without the mark is unmarked already. -/
theorem Ty.unmarked_eq {T : Ty} (h : T.isMarked = false) : T.unmarked = T := by
  cases T with
  | array r item nonempty =>
    cases h
    rfl
  | _ => rfl

/-- Without its mark, an array type is another type. -/
theorem Ty.isMarked_eq_false_of_same {T : Ty} (h : (Node.type T).same (.type T.unmarked) = true) :
    T.isMarked = false := by
  cases T with
  | array r item nonempty =>
    rw [Node.same, View.same_iff] at h
    cases nonempty <;> simp_all [Ty.unmarked, Ty.isMarked, Node.view, Ty.view, View.normal,
      View.normalEntries]
  | _ => rfl

/-- Written as the type of a struct member, the text of every type in a tree declares the type up to
its own mark for arrays that must not be empty; so it declares just the type, unless that is an
array type with the mark. -/
theorem Node.Parsed.span_declares (rules : Rules) (f : StructFrame) (fits : f.Fits rules)
    (source : SourceText) (T : Ty) (h : (Node.type T).Parsed rules source) :
    f.Declares rules (source.piece (source.span T.range)) T.unmarked ∧
      (f.Declares rules (source.piece (source.span T.range)) T ↔ T.isMarked = false) := by
  obtain ⟨sited, inside⟩ := h.sited
  have origin : Parser.TypeOrigin rules.frontEnd (Parser.terminated source.chars) T :=
    sited.here.origin
  have short : f.Declares rules (source.piece (source.span T.range)) T.unmarked := by
    refine origin.declares fits ?_
    have ordered : T.range.start ≤ T.range.stop := sited.here.placed.ordered
    rw [source.piece_span ordered, String.toList_ofList]
    exact (terminated_cut inside).symm
  refine ⟨short, fun whole => ?_, fun plain => ?_⟩
  · exact Ty.isMarked_eq_false_of_same (whole.unique short)
  · rwa [Ty.unmarked_eq plain] at short

/-- The array type in `Array[Int]+?` ends before its mark: its text says that it may be empty. -/
theorem Node.Parsed.span_declares_unmarked :
    let rules : Rules := ⟨.flat, reservedWords, .none⟩
    let f : StructFrame := ⟨"1.1", "S", "x"⟩
    let source : SourceText :=
      { chars := "version 1.1 struct S \x7b Array[Int]+? x \x7d".toList, uri := "", abspath := "" }
    ∃ T : Ty, (Node.type T).Parsed rules source ∧ f.Fits rules ∧ T.isMarked = true ∧
      source.piece (source.span T.range) = "Array[Int]" ∧
      f.Declares rules "Array[Int]" T.unmarked ∧ ¬ f.Declares rules "Array[Int]" T := by
  intro rules f source
  have found : ((parseDocument rules source).result.toOption.bind fun d =>
      (Node.descendant? [1, 0, 0, 0] (.document d)).bind fun n => match n with
        | .type T => some (T.isMarked, source.piece (source.span T.range))
        | _ => none) = some (true, "Array[Int]") := by
    decide +kernel
  obtain ⟨d, parsed, found⟩ := Option.bind_eq_some_iff.1 found
  obtain ⟨n, below, found⟩ := Option.bind_eq_some_iff.1 found
  cases n with
  | type T =>
    obtain ⟨marked, piece⟩ := Prod.mk.inj (Option.some.inj found)
    have inTree : (Node.type T).Parsed rules source :=
      ⟨_, _, .document (toOption_eq_some.1 parsed), below⟩
    have fits : f.Fits rules := ⟨by decide, by decide, by decide⟩
    obtain ⟨short, whole⟩ := Node.Parsed.span_declares rules f fits source T inTree
    rw [piece] at short whole
    refine ⟨T, inTree, fits, marked, piece, short, fun declares => ?_⟩
    rw [whole.1 declares] at marked
    cases marked
  | _ => cases found

end Wdl
