import Wdl.Proofs.Frames
import Wdl.Proofs.ErrorSpans
import Wdl.Proofs.Guarantees

/-!
# Wdl.Proofs.Sequencing -- which sequences of elements are a document

A document is a version statement with other elements behind it, at most one of them a workflow.
Elements are put together one after the other, and the first one that cannot follow those before it
is reported: a second version statement, one that comes too late, or a second workflow. If every
element can follow those before it and there is no version statement, it is missed where the first
element starts. That place is the one that the line and the column of the element lead to.

* `Offends` is what can be wrong with an element behind others, and `Orderly` elements are those of
  which none offends.
* `Assembles` says what becomes of the elements of a text, without a loop: they are a document, or
  the first one that offends is reported, or the version statement is missing.
* `gathered` is the state of the loop behind some elements. `add_offending` and `add_orderly` are
  one step of it, and `foldlM_orderly` and `foldlM_offended` are whole runs.
* `assembleDocument_eq_iff` says that the loop does what `Assembles` says.

The result, `parseDocument_assembles`, is about texts. There all elements are built before any two
are looked at together, so the statement starts from the elements that were built.
-/

namespace Wdl

variable {α β : Type}

/-! ## Builders that do not listen

Builders can warn, and what they return does not depend on what was warned of before. So it can be
said what a text is parsed to without saying which warnings go with it. -/

/-- What a builder returns does not depend on what was warned of before. -/
def Builder.Steady (b : Builder α) : Prop := ∀ x, b.Gives x → b.Returns x

namespace Builder

theorem steady_pure (x : α) : Steady (pure x) := by
  intro y given
  rw [← gives_pure given]
  exact returns_pure x

theorem steady_check (c : Checked α) : Steady (Build.check c) :=
  fun _ given => returns_check (gives_check given)

theorem steady_warn (w : Warning) : Steady (Build.warn w) := fun _ _ => returns_warn w

theorem steady_bind {b : Builder α} {f : α → Builder β} (first : Steady b)
    (rest : ∀ x, Steady (f x)) : Steady (b >>= f) := by
  intro y given
  obtain ⟨x, hx, hy⟩ := gives_bind given
  exact returns_bind (first x hx) (rest x y hy)

theorem steady_each {f : α → Builder β} (each : ∀ x, Steady (f x)) (xs : List α) :
    Steady (Build.each f xs) := by
  induction xs with
  | nil => exact steady_pure _
  | cons x xs ih => exact steady_bind (each x) fun _ => steady_bind ih fun _ => steady_pure _

end Builder

namespace Build

open Builder

variable (rules : Rules)

theorem steady_collectRuntime (done : List (String × Expr))
    (entries : List (Range × String × Expr)) : Steady (collectRuntime done entries) := by
  induction entries generalizing done with
  | nil => exact steady_pure _
  | cons entry entries ih =>
    rw [collectRuntime]
    split
    · exact steady_bind (steady_warn _) fun _ => ih _
    · exact ih _

theorem steady_command (c : Surface.Command) : Steady (command rules c) := by
  refine steady_bind (steady_check _) fun parts => ?_
  dsimp only
  split
  · exact steady_bind (steady_warn _) fun _ => steady_pure _
  · exact steady_pure _

theorem steady_taskItem (item : Surface.TaskItem) : Steady (taskItem rules item) := by
  cases item with
  | runtime r entries =>
    exact steady_bind (steady_check _) fun _ =>
      steady_bind (steady_collectRuntime _ _) fun _ => steady_pure _
  | _ => exact steady_bind (steady_check _) fun _ => steady_pure _

theorem steady_task (t : Surface.Task) : Steady (task rules t) :=
  steady_bind (steady_each (steady_taskItem rules) _) fun _ =>
    steady_bind (steady_command rules _) fun _ =>
      steady_bind (steady_each (steady_taskItem rules) _) fun _ =>
        steady_bind (steady_check _) fun _ => steady_check _

theorem steady_element (x : Surface.Element) : Steady (element rules x) := by
  cases x with
  | task t => exact steady_bind (steady_task rules t) fun _ => steady_pure _
  | _ => exact steady_bind (steady_check _) fun _ => steady_pure _

/-! ## Offences

Whether an element offends is about the elements before it as they were written, and not about what
was put together from them. Elements are in order just if they are in order up to the last one,
which then does not offend. -/

/-- A version statement. -/
def TopLevel.isVersion : TopLevel → Bool
  | .version _ => true
  | .element _ => false

/-- A workflow. -/
def TopLevel.isWorkflow : TopLevel → Bool
  | .version _ => false
  | .element e => e.isWorkflow

/-- What is wrong with an element behind others. -/
inductive Offends (before : List TopLevel) : TopLevel → Violation → Prop
  | secondVersion (v : Version) : before.any TopLevel.isVersion = true →
      Offends before (.version v) .secondVersion
  | lateVersion (v : Version) : before ≠ [] → before.any TopLevel.isVersion = false →
      Offends before (.version v) .lateVersion
  | secondWorkflow (w : Workflow) : before.any TopLevel.isWorkflow = true →
      Offends before (.element (.workflow w)) .secondWorkflow

/-- Nothing is wrong with any element behind those before it. -/
def Orderly (items : List TopLevel) : Prop :=
  ∀ before x after, items = before ++ x :: after → ∀ violation, ¬ Offends before x violation

/-- What becomes of the elements of a document. -/
inductive Assembles (source : SourceText) (items : List TopLevel) :
    Except Violated Document → Prop
  | accepted {v : Version} {es : List Element} : items = .version v :: es.map .element →
      es.countP Element.isWorkflow ≤ 1 →
      Assembles source items (.ok ⟨source.wholeRange, v, es, source⟩)
  | offended {before after : List TopLevel} {x : TopLevel} {violation : Violation} :
      items = before ++ x :: after → Orderly before → Offends before x violation →
      Assembles source items (.error ⟨violation, topRange x⟩)
  | missing {start : Nat} : Orderly items → items.any TopLevel.isVersion = false →
      start = (items.head?.map fun x => (topRange x).start).getD 0 →
      Assembles source items (.error ⟨.missingVersion, ⟨start, start⟩⟩)

theorem orderly_nil : Orderly [] := by
  intro before x after split
  cases before <;> cases split

/-- One more element leaves elements in order if it offends in no way. -/
theorem orderly_snoc {items : List TopLevel} {x : TopLevel} :
    Orderly (items ++ [x]) ↔ Orderly items ∧ ∀ violation, ¬ Offends items x violation := by
  constructor
  · refine fun orderly => ⟨fun before y after split => ?_, orderly items x [] rfl⟩
    exact orderly before y (after ++ [x]) (by rw [split]; simp)
  · rintro ⟨orderly, last⟩ before y after split violation offends
    rcases List.eq_nil_or_concat after with rfl | ⟨after, z, rfl⟩
    · obtain ⟨rfl, same⟩ := List.append_inj' split rfl
      cases same
      exact last violation offends
    · have split : items ++ [x] = (before ++ y :: after) ++ [z] := by
        rw [split]
        simp
      exact orderly before y after (List.append_inj' split rfl).1 violation offends

/-- Elements are in order, or a first one offends those before it. -/
theorem orderly_or_offends (items : List TopLevel) :
    Orderly items ∨ ∃ before x after violation,
      items = before ++ x :: after ∧ Orderly before ∧ Offends before x violation := by
  induction items using List.reverseRecOn with
  | nil => exact .inl orderly_nil
  | append_singleton items x ih =>
    rcases ih with orderly | ⟨before, y, after, violation, split, orderly, offends⟩
    · by_cases offended : ∃ violation, Offends items x violation
      · obtain ⟨violation, offends⟩ := offended
        exact .inr ⟨items, x, [], violation, rfl, orderly, offends⟩
      · exact .inl (orderly_snoc.2 ⟨orderly, not_exists.1 offended⟩)
    · exact .inr ⟨before, y, after ++ [x], violation, by rw [split]; simp, orderly, offends⟩

/-! ## Putting elements together

The loop keeps the version and the body so far, and whether there was a workflow. As long as
elements are in order, these are read off from the elements by `gathered`. -/

/-- The version of a version statement. -/
def TopLevel.version? : TopLevel → Option Version
  | .version v => some v
  | .element _ => none

/-- The element that is no version statement. -/
def TopLevel.element? : TopLevel → Option Element
  | .version _ => none
  | .element e => some e

/-- What elements that follow each other have been put together to. -/
def gathered (items : List TopLevel) : Assembled :=
  ⟨items.findSome? TopLevel.version?, items.any TopLevel.isWorkflow,
    items.filterMap TopLevel.element?⟩

/-- There is a version so far just if there was a version statement. -/
theorem isSome_version (items : List TopLevel) :
    (items.findSome? TopLevel.version?).isSome = items.any TopLevel.isVersion := by
  rw [List.isSome_findSome?]
  refine congrArg _ (funext fun x => ?_)
  cases x <;> rfl

/-- Without a version statement, what is put together is all elements. -/
theorem map_element_eq {items : List TopLevel} (none : items.any TopLevel.isVersion = false) :
    (items.filterMap TopLevel.element?).map .element = items := by
  induction items with
  | nil => rfl
  | cons x items ih =>
    rw [List.any_cons, Bool.or_eq_false_iff] at none
    cases x with
    | version v => cases none.1
    | element e =>
      show TopLevel.element e :: (items.filterMap TopLevel.element?).map .element = _
      rw [ih none.2]

/-- An element that offends those before it is not added to them. -/
theorem add_offending {before : List TopLevel} {x : TopLevel} {violation : Violation}
    (offends : Offends before x violation) :
    (gathered before).add x = .error ⟨violation, topRange x⟩ := by
  cases offends with
  | secondVersion v twice =>
    simp only [Assembled.add, gathered, isSome_version, twice, if_true]
    rfl
  | lateVersion v late none =>
    have behind : (before.filterMap TopLevel.element?).isEmpty = false := by
      rw [List.isEmpty_eq_false_iff]
      intro empty
      rw [← map_element_eq none, empty] at late
      exact late rfl
    simp only [Assembled.add, gathered, isSome_version, none, behind]
    rfl
  | secondWorkflow w twice =>
    simp only [Assembled.add, gathered, twice, if_true]
    rfl

/-- Any other element is added to those before it. -/
theorem add_orderly {before : List TopLevel} {x : TopLevel}
    (fine : ∀ violation, ¬ Offends before x violation) :
    (gathered before).add x = .ok (gathered (before ++ [x])) := by
  have all : gathered (before ++ [x]) =
      ⟨(before.findSome? TopLevel.version?).or x.version?,
        before.any TopLevel.isWorkflow || x.isWorkflow,
        before.filterMap TopLevel.element? ++ x.element?.toList⟩ := by
    cases x <;> simp [gathered, TopLevel.version?, TopLevel.element?]
  rw [all]
  cases x with
  | version v =>
    -- a version statement can only be the first element
    have first : before = [] := by
      by_contra late
      cases none : before.any TopLevel.isVersion with
      | true => exact fine _ (.secondVersion v none)
      | false => exact fine _ (.lateVersion v late none)
    subst first
    rfl
  | element e =>
    cases e with
    | workflow w =>
      cases none : before.any TopLevel.isWorkflow with
      | true => exact absurd (Offends.secondWorkflow w none) (fine _)
      | false => simp [Assembled.add, gathered, none, TopLevel.version?, TopLevel.element?,
          TopLevel.isWorkflow, Element.isWorkflow]
    | _ => simp [Assembled.add, gathered, TopLevel.version?, TopLevel.element?,
        TopLevel.isWorkflow, Element.isWorkflow]

/-- Elements that are in order are put together. -/
theorem foldlM_orderly {items : List TopLevel} (orderly : Orderly items) :
    items.foldlM Assembled.add (gathered []) = .ok (gathered items) := by
  induction items using List.reverseRecOn with
  | nil => rfl
  | append_singleton items x ih =>
    obtain ⟨orderly, fine⟩ := orderly_snoc.1 orderly
    rw [List.foldlM_append, ih orderly]
    show (gathered items).add x >>= pure = _
    rw [add_orderly fine]
    rfl

/-- Elements are put together up to the first one that offends those before it. -/
theorem foldlM_offended {before after : List TopLevel} {x : TopLevel} {violation : Violation}
    (orderly : Orderly before) (offends : Offends before x violation) :
    (before ++ x :: after).foldlM Assembled.add (gathered []) =
      .error ⟨violation, topRange x⟩ := by
  rw [List.foldlM_append, foldlM_orderly orderly]
  show (gathered before).add x >>= _ = _
  rw [add_offending offends]
  rfl

/-- Elements in order with a version statement start with it, and there is no other one. -/
theorem Orderly.version_first {items : List TopLevel} (orderly : Orderly items)
    (found : items.any TopLevel.isVersion = true) :
    ∃ (v : Version) (es : List Element), items = .version v :: es.map .element := by
  obtain ⟨x, mem, version⟩ := List.any_eq_true.1 found
  cases x with
  | element e => cases version
  | version v =>
    obtain ⟨before, after, rfl⟩ := List.append_of_mem mem
    -- nothing is before it, since behind anything it would come late or be a second one
    have first : before = [] := by
      by_contra late
      cases none : before.any TopLevel.isVersion with
      | true => exact orderly before _ after rfl _ (.secondVersion v none)
      | false => exact orderly before _ after rfl _ (.lateVersion v late none)
    subst first
    have only : after.any TopLevel.isVersion = false := by
      rw [List.any_eq_false]
      intro y hy again
      cases y with
      | element e => cases again
      | version w =>
        obtain ⟨between, rest, rfl⟩ := List.append_of_mem hy
        exact orderly (.version v :: between) _ rest rfl _ (.secondVersion w rfl)
    exact ⟨v, after.filterMap TopLevel.element?, by rw [map_element_eq only]; rfl⟩

/-- Items of which none follows another one are one at most. -/
theorem countP_le_one {p : α → Bool} {xs : List α}
    (single : ∀ before x after, xs = before ++ x :: after → p x = true → before.any p = false) :
    xs.countP p ≤ 1 := by
  induction xs with
  | nil => simp
  | cons x xs ih =>
    cases hx : p x with
    | false =>
      rw [List.countP_cons_of_neg (by simp [hx])]
      refine ih fun before y after split hy => ?_
      have whole := single (x :: before) y after (by rw [split]; rfl) hy
      rw [List.any_cons, Bool.or_eq_false_iff] at whole
      exact whole.2
    | true =>
      have none : xs.countP p = 0 := by
        rw [List.countP_eq_zero]
        intro y mem hy
        obtain ⟨before, after, rfl⟩ := List.append_of_mem mem
        have whole := single (x :: before) y after rfl hy
        rw [List.any_cons, hx] at whole
        cases whole
      rw [List.countP_cons_of_pos hx, none]

/-- In order, elements hold no second workflow. -/
theorem Orderly.workflow_once {v : Version} {es : List Element}
    (orderly : Orderly (.version v :: es.map .element)) : es.countP Element.isWorkflow ≤ 1 := by
  refine countP_le_one fun before e after split workflow => ?_
  subst split
  cases e with
  | workflow w =>
    by_contra twice
    rw [Bool.not_eq_false] at twice
    refine orderly (.version v :: before.map .element) (.element (.workflow w))
      (after.map .element) (by simp) _ (.secondWorkflow w ?_)
    rw [List.any_cons, List.any_map, Bool.or_eq_true]
    exact .inr twice
  | _ => cases workflow

/-- Behind a version statement, any elements of which at most one is a workflow are in order. -/
theorem orderly_version {v : Version} {es : List Element}
    (single : es.countP Element.isWorkflow ≤ 1) : Orderly (.version v :: es.map .element) := by
  intro before x after split violation offends
  cases before with
  -- the version statement offends nothing, as there is nothing before it
  | nil =>
    cases offends with
    | secondVersion _ twice => cases twice
    | lateVersion _ late _ => exact late rfl
    | secondWorkflow _ twice => cases twice
  | cons first before =>
    obtain ⟨rfl, behind⟩ := List.cons.inj split
    obtain ⟨es₁, rest, rfl, rfl, more⟩ := List.map_eq_append_iff.1 behind
    obtain ⟨e, es₂, rfl, rfl, rfl⟩ := List.map_eq_cons_iff.1 more
    cases offends with
    | secondWorkflow w twice =>
      rw [List.any_cons, List.any_map, Bool.or_eq_true] at twice
      have one : 0 < es₁.countP Element.isWorkflow := by
        rcases twice with twice | twice
        · cases twice
        · obtain ⟨y, mem, hy⟩ := List.any_eq_true.1 twice
          exact List.countP_pos_iff.2 ⟨y, mem, hy⟩
      rw [List.countP_append, List.countP_cons_of_pos rfl] at single
      omega

variable {source : SourceText} {items : List TopLevel} {r : Except Violated Document}

/-- Something becomes of any elements. -/
theorem exists_assembles (source : SourceText) (items : List TopLevel) :
    ∃ r, Assembles source items r := by
  rcases orderly_or_offends items with
    orderly | ⟨before, x, after, violation, rfl, orderly, offends⟩
  · cases found : items.any TopLevel.isVersion with
    | true =>
      obtain ⟨v, es, rfl⟩ := Orderly.version_first orderly found
      exact ⟨_, .accepted rfl (Orderly.workflow_once orderly)⟩
    | false => exact ⟨_, .missing orderly found rfl⟩
  · exact ⟨_, .offended rfl orderly offends⟩

/-- What becomes of elements is what putting them together gives. -/
theorem Assembles.eq (h : Assembles source items r) : assembleDocument source items = r := by
  show items.foldlM Assembled.add (gathered []) >>= _ = _
  cases h with
  | @accepted v es whole single =>
    subst whole
    rw [foldlM_orderly (orderly_version single)]
    have body : (es.map TopLevel.element).filterMap TopLevel.element? = es := by
      rw [List.filterMap_map]
      exact List.filterMap_some
    show (Except.ok ⟨source.wholeRange, v, (es.map TopLevel.element).filterMap TopLevel.element?,
      source⟩ : Except Violated Document) = _
    rw [body]
  | offended split orderly offends =>
    subst split
    rw [foldlM_offended orderly offends]
    rfl
  | missing orderly none place =>
    have version : (gathered items).version = .none := by
      rw [← Option.not_isSome_iff_eq_none, gathered, isSome_version, none]
      exact Bool.false_ne_true
    have first : (gathered items).body.head?.map (fun e => e.range.start) =
        items.head?.map fun x => (topRange x).start := by
      conv_rhs => rw [← map_element_eq none, List.head?_map, Option.map_map]
      rfl
    rw [foldlM_orderly orderly]
    show (gathered items).requireVersion >>= _ = _
    rw [Assembled.requireVersion, version, first, ← place]
    rfl

/-- Putting elements together gives just what becomes of them. -/
theorem assembleDocument_eq_iff : assembleDocument source items = r ↔ Assembles source items r := by
  refine ⟨fun eq => ?_, Assembles.eq⟩
  obtain ⟨r', h⟩ := exists_assembles source items
  rwa [← eq, h.eq]

end Build

/-! ## Documents of a text

The place where a version statement is missed is not kept with the elements, but found from the line
and the column of the first one. -/

namespace SourceText

/-- The line and the column of a place lead back to it. -/
theorem charPos_span (s : SourceText) {r : Range} (inside : r.start ≤ s.chars.length) :
    s.charPos (s.span r).line (s.span r).column = r.start := by
  have start : ((s.span r).line, (s.span r).column) = s.lineColumn r.start := rfl
  rw [s.lineColumn_eq inside] at start
  obtain ⟨line, column⟩ := Prod.mk.inj start
  rw [line, column]
  exact s.charPos_lineColumn inside

/-- The span of nothing, at the start of another span. -/
theorem span_start (s : SourceText) (r : Range) :
    s.span ⟨r.start, r.start⟩ = ⟨(s.span r).line, (s.span r).column, (s.span r).line,
      (s.span r).column, (s.span r).offset, (s.span r).offset⟩ := rfl

end SourceText

open Build

variable {rules : Rules} {source : SourceText}

/-- An element and its node have one range. -/
theorem Build.node_range (x : TopLevel) : x.node.range = topRange x := by
  cases x with
  | version v => rfl
  | element e => cases e <;> rfl

/-- A document is put together from the elements that were built. -/
theorem parseDocument_result {d : Surface.Document} {items : List TopLevel}
    (parsed : Surface.Document.parse rules.frontEnd.next source.chars = .ok d)
    (built : (each (element rules) d.elements).Gives items) :
    (parseDocument rules source).result =
      (assembleDocument source items).mapError (.violated rules.frontEnd) := by
  obtain ⟨after, run⟩ := Builder.steady_each (steady_element rules) d.elements items built []
  have whole : StateT.run (ExceptT.run (document rules source d)) [] =
      (assembleDocument source items, after) := by
    rw [document, ExceptT.run_bind, StateT.run_bind, run]
    rfl
  rw [parseDocument, parsed]
  simp only [Parsed.ofSurface, Parsed.ofBuilder, whole]
  cases assembleDocument source items <;> rfl

/-- A text of which all elements are built is a document if and only if exactly one of them is a
version statement, the first one, and at most one is a workflow; its body is the other elements in
order. Otherwise the first element that offends those before it is reported, or else that the
version statement is missing, at the start of the first element: at the place that the line and the
column of that element lead to, which is as many bytes into the text as the element is. -/
theorem parseDocument_assembles {d : Surface.Document} {items : List TopLevel}
    (parsed : Surface.Document.parse rules.frontEnd.next source.chars = .ok d)
    (built : (each (element rules) d.elements).Gives items) :
    (∀ r : Except Violated Document,
      (parseDocument rules source).result = r.mapError (.violated rules.frontEnd) ↔
        Assembles source items r) ∧
    ∀ first, items.head? = some first →
      let span := source.span (topRange first)
      let start := source.charPos span.line span.column
      start = (topRange first).start ∧
        source.span ⟨start, start⟩ =
          ⟨span.line, span.column, span.line, span.column, span.offset, span.offset⟩ := by
  constructor
  · intro r
    rw [parseDocument_result parsed built, ← assembleDocument_eq_iff]
    constructor
    · intro same
      cases eq : assembleDocument source items <;> rw [eq] at same <;> cases r <;> cases same <;>
        rfl
    · rintro rfl
      rfl
  · intro first head
    have laid := elements_laid parsed built
    have mem : first.node ∈ items.map TopLevel.node :=
      List.mem_map_of_mem (List.mem_of_head? head)
    have inside : first.node.range.start ≤ source.chars.length :=
      Nat.le_trans (laid.each _ mem).here.placed.ordered (laid.within _ mem).2
    rw [node_range] at inside
    intro span start
    have place : start = (topRange first).start := source.charPos_span inside
    refine ⟨place, ?_⟩
    rw [place]
    exact source.span_start _

/-- The struct behind a comment starts at the fifth character, which is the sixth byte, and there
the version statement is missed. -/
theorem parseDocument_assembles_accent :
    let source := SourceText.ofString "# é\nstruct S { Int x }\n" "" ""
    let rules : Rules := ⟨.flat, [], .none⟩
    ∃ d items, Surface.Document.parse rules.frontEnd.next source.chars = .ok d ∧
      (each (element rules) d.elements).Gives items ∧
      Assembles source items (.error ⟨.missingVersion, ⟨4, 4⟩⟩) ∧
      source.span ⟨4, 4⟩ = ⟨2, 1, 2, 1, 5, 5⟩ := by
  intro source rules
  have found : (match Surface.Document.parse rules.frontEnd.next source.chars with
      | .error _ => none
      | .ok d => match StateT.run (ExceptT.run (each (element rules) d.elements)) [] with
        | (.error _, _) => none
        | (.ok items, _) => some (items.map topRange)) = some [⟨4, 22⟩] := by
    decide +kernel
  have missed : (match (parseDocument rules source).result with
      | .error e => some e
      | .ok _ => none) = some (.violated .flat ⟨.missingVersion, ⟨4, 4⟩⟩) := by
    decide +kernel
  split at found
  · cases found
  rename_i d parsed
  split at found
  · cases found
  rename_i items after run
  have built : (each (element rules) d.elements).Gives items := ⟨[], after, run⟩
  obtain ⟨assembles, position⟩ := parseDocument_assembles parsed built
  refine ⟨d, items, parsed, built, (assembles _).1 ?_, ?_⟩
  · split at missed
    · rename_i e failed
      cases missed
      exact failed
    · cases missed
  · -- the place that the line and the column of the struct lead to
    obtain ⟨first, rest, rfl⟩ : ∃ first rest, items = first :: rest := by
      cases items with
      | nil => cases found
      | cons first rest => exact ⟨first, rest, rfl⟩
    have range : topRange first = ⟨4, 22⟩ := (List.cons.inj (Option.some.inj found)).1
    obtain ⟨place, span⟩ := position first rfl
    rw [place, range] at span
    rw [span]
    decide +kernel

end Wdl
