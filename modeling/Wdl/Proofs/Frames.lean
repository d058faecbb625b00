import Wdl.Proofs.Respacing
import Wdl.Proofs.Wordings

/-!
# Wdl.Proofs.Frames -- documents of a version statement and one element

The smallest document that holds some piece of the language is a version statement with one element
around the piece. Where the steps of such elements can be taken, the parser of documents takes them;
and building returns the document if it returns the element. So it is settled once what a document
comes to that is written around a piece.

* `Builder.Returns` is a computation that returns a value whatever was warned of before, with one
  lemma for each way to put computations together.
* `Parser.ElementSteps` lists the elements that are needed: a version statement, a struct without
  initializers, and a task that is only a command. `element_replays` says that the parser takes
  their steps. `ReadsAs` is what such a lemma says of any parser of items, so `many_reads` puts
  items of any sort one behind the other.
* `parseDocument_around` is the result for texts. It asks for lexemes that are legible, for steps of
  an element, and for what these are built to.
* `StructFrame` is the case of a struct with one member, of which the type is given as a text
  (`StructFrame.declares`).
-/

namespace Wdl

open Scan

variable {α β : Type}

/-! ## Builders that return -/

/-- A computation returns a value whatever was warned of before. -/
def Builder.Returns (b : Builder α) (x : α) : Prop :=
  ∀ before, ∃ after, StateT.run (ExceptT.run b) before = (.ok x, after)

namespace Builder

/-- A value is returned. -/
theorem returns_pure (x : α) : (pure x : Builder α).Returns x := fun before => ⟨before, rfl⟩

/-- A computation behind another returns what it returns for the value of the first. -/
theorem returns_bind {b : Builder α} {f : α → Builder β} {x : α} {y : β} (first : b.Returns x)
    (rest : (f x).Returns y) : (b >>= f).Returns y := by
  intro before
  obtain ⟨between, h⟩ := first before
  obtain ⟨after, h'⟩ := rest between
  refine ⟨after, ?_⟩
  rw [ExceptT.run_bind, StateT.run_bind, h]
  exact h'

/-- A check that passes returns its value. -/
theorem returns_check {c : Checked α} {x : α} (h : c = .ok x) : (Build.check c).Returns x := by
  subst h
  exact fun before => ⟨before, rfl⟩

/-- Warning of something returns. -/
theorem returns_warn (w : Warning) : (Build.warn w).Returns () := fun before => ⟨before ++ [w], rfl⟩

/-- Items are returned one by one. -/
theorem returns_each {f : α → Builder β} {xs : List α} {ys : List β}
    (h : List.Forall₂ (fun x y => (f x).Returns y) xs ys) : (Build.each f xs).Returns ys := by
  induction h with
  | nil => exact returns_pure _
  | cons first _ ih => exact returns_bind first (returns_bind ih (returns_pure _))

end Builder

variable {rules : Rules} {source : SourceText}

@[simp] theorem SourceText.chars_ofString (text uri abspath : String) :
    (SourceText.ofString text uri abspath).chars = text.toList := rfl

/-- What a builder returns is the result. -/
theorem Parsed.ofBuilder_eq_ok {b : Builder α} {x : α} (fe : FrontEnd) (h : b.Returns x) :
    (Parsed.ofBuilder fe b).result = .ok x := by
  obtain ⟨after, run⟩ := h []
  simp only [Parsed.ofBuilder, run]

/-- What is read and then built is the result. -/
theorem Parsed.ofSurface_ok {fe : FrontEnd} {surface : Except Rejection α} {build : α → Builder β}
    {x : α} {y : β} (read : surface = .ok x) (built : (build x).Returns y) :
    (Parsed.ofSurface fe surface build).result = .ok y := by
  subst read
  exact Parsed.ofBuilder_eq_ok fe built

/-- A document of a version statement and one element is built if the element is. -/
theorem Build.document_returns {d : Surface.Document} {r : Range} {v : Surface.Word}
    {x : Surface.Element} {X : Element} (elements : d.elements = [.version r v, x])
    (supported : v.text ∈ supportedVersions)
    (built : (Build.element rules x).Returns (.element X)) :
    (Build.document rules source d).Returns ⟨source.wholeRange, ⟨r, v.text⟩, [X], source⟩ := by
  have version : (Build.element rules (.version r v)).Returns (.version ⟨r, v.text⟩) := by
    refine Builder.returns_bind (Builder.returns_check ?_) (Builder.returns_pure _)
    rw [Build.version, if_pos (List.contains_iff_mem.2 supported)]
  have each := Builder.returns_each (.cons version (.cons built .nil))
  rw [← elements] at each
  refine Builder.returns_bind each (Builder.returns_check ?_)
  cases X <;> rfl

variable {fe : FrontEnd} {A : Expect} {ls : List Lexeme} {gap rest : List Char}

namespace Parser

open Surface

/-! ## Elements -/

/-- The tokens of a declaration without an initializer. -/
structure DeclPiece where
  type : TypeExpr
  typeSteps : List Step
  name : Token

namespace DeclPiece

/-- The declaration that is written. -/
def decl (p : DeclPiece) : Surface.Decl :=
  ⟨⟨p.type.range.start, p.name.stop⟩, p.type, word p.name, none⟩

/-- The steps of the declaration. -/
def steps (p : DeclPiece) : List Step := p.typeSteps ++ [⟨p.name, Expect.entries⟩]

/-- The tokens of a declaration are those of a type and a name. -/
structure Fits (p : DeclPiece) : Prop where
  type : TypeSteps p.type p.typeSteps
  name : p.name.kind = .name

end DeclPiece

/-- The steps write a version statement, a struct without initializers, or a task that is only a
command. -/
inductive ElementSteps : Surface.Element → List Step → Prop
  | version (start identifier : Token) : start.kind = .keyword .kwVersion →
      identifier.kind = .versionWord →
      ElementSteps (.version ⟨start.start, identifier.stop⟩ (word identifier))
        [⟨start, Expect.aVersion⟩, ⟨identifier, Expect.elements⟩]
  | struct (start name brace close : Token) (members : List DeclPiece) :
      start.kind = .keyword .kwStruct → name.kind = .name → brace.kind = .symbol .braceOpen →
      close.kind = .symbol .braceClose → (∀ m ∈ members, m.Fits) →
      ElementSteps
        (.struct ⟨⟨start.start, close.stop⟩, word name, members.map DeclPiece.decl⟩)
        (⟨start, Expect.aName⟩ :: ⟨name, Expect.aBrace⟩ :: ⟨brace, Expect.entries⟩ ::
          (members.flatMap DeclPiece.steps ++ [⟨close, Expect.elements⟩]))
  | task (start name brace close : Token) (command : CommandPiece) :
      start.kind = .keyword .kwTask → name.kind = .name → brace.kind = .symbol .braceOpen →
      close.kind = .symbol .braceClose → command.Fits →
      (∀ q ∈ command.parts, ∀ x ∈ q.inner, Script .expr .placeholder x.expr x.steps) →
      ElementSteps (.task ⟨⟨start.start, close.stop⟩, word name, [], command.command, []⟩)
        (⟨start, Expect.aName⟩ :: ⟨name, Expect.aBrace⟩ :: ⟨brace, Expect.taskBody⟩ ::
          (command.steps ++ [⟨close, Expect.elements⟩]))

variable {lex : Scanner} {s s' : State}

/-- A list of items ends where none starts. -/
theorem many_nil {starts : Terminal → Bool} {item : Parser α}
    (stop : s.kind?.any starts = false) : many starts item s = .ok ([], s) := by
  rw [many, remaining_bind, manyUpTo, peek_bind, if_neg (by simp [stop])]
  exact pure_eq_ok.2 ⟨rfl, rfl⟩

/-- The steps of a declaration without an initializer are taken as it. -/
theorem unboundDecl_replays (forward : Forward lex) {p : DeclPiece} (fits : p.Fits)
    (run : Run lex s p.steps s') : unboundDecl lex s = .ok (p.decl, s') := by
  obtain ⟨t, runType, runName⟩ := run_append.1 run
  have ends : t.TypeEnds := typeEnds_of_kind (runName.kind?_eq.trans (congrArg some fits.name)) rfl
  exact bind_eq_ok.2 ⟨_, t, typeExpr_replays forward fits.type runType ends, bind_eq_ok.2
    ⟨_, s', takeName_eq_ok.2 ⟨p.name, fits.name, rfl, runName⟩, pure_eq_ok.2 ⟨rfl, rfl⟩⟩⟩

/-- A declaration starts with the name of its type. -/
theorem DeclPiece.Fits.head {p : DeclPiece} (fits : p.Fits) :
    ∃ x, p.steps.head? = some x ∧ isName x.token.kind = true := by
  obtain ⟨type, xs, name⟩ := p
  have steps := fits.type
  simp only at steps
  cases steps with
  | name t m kind => exact ⟨_, rfl, by simp [kind, isName]⟩
  | one t bracket close m kind => exact ⟨_, rfl, by simp [kind, isName]⟩
  | two t bracket comma close m kind => exact ⟨_, rfl, by simp [kind, isName]⟩

/-- Items that all start are taken, up to where none starts. -/
theorem many_replays (forward : Forward lex) {starts : Terminal → Bool} {item : Parser α}
    {value : β → α} {steps : β → List Step} {qs : List β}
    (hitem : ∀ q ∈ qs, ∀ t u, Run lex t (steps q) u → item t = .ok (value q, u))
    (heads : ∀ q ∈ qs, ∃ x, (steps q).head? = some x ∧ starts x.token.kind = true)
    (run : Run lex s (qs.flatMap steps) s') (stop : s'.kind?.any starts = false) :
    many starts item s = .ok (qs.map value, s') := by
  have used := run.length_add_left forward
  have left := s.left_le
  have enough : qs.length ≤ (qs.flatMap steps).length := by
    refine length_le_length_flatMap fun q hq none => ?_
    obtain ⟨x, head, -⟩ := heads q hq
    rw [none] at head
    cases head
  rw [many, remaining_bind]
  exact manyUpTo_replays hitem heads (by omega) run stop

/-- The steps start an item, and where they can be taken, a parser takes them as it. -/
structure ReadsAs (lex : Scanner) (starts : Terminal → Bool) (item : Parser α) (x : α)
    (xs : List Step) : Prop where
  head : ∃ y, xs.head? = some y ∧ starts y.token.kind = true
  taken : ∀ {s s' : State}, Run lex s xs s' → item s = .ok (x, s')

/-- What starts with a terminal is read as something that goes by that terminal. -/
theorem ReadsAs.goes {item : Parser α} {item' : Parser β} {x : α} {y : β} {xs : List Step}
    {k : Terminal} {starts : Terminal → Bool} (h : ReadsAs lex (· == k) item x xs)
    (start : starts k = true)
    (step : ∀ {t u : State}, t.kind? = some k → item t = .ok (x, u) → item' t = .ok (y, u)) :
    ReadsAs lex starts item' y xs := by
  obtain ⟨⟨z, first, eq⟩, taken⟩ := h
  obtain ⟨zs, rfl⟩ := List.head?_eq_some_iff.1 first
  have kind : z.token.kind = k := by simpa using eq
  exact ⟨⟨z, rfl, kind ▸ start⟩,
    fun run => step (run.kind?_eq.trans (congrArg some kind)) (taken run)⟩

/-- Items one behind the other are read, up to where none starts. -/
theorem many_reads (forward : Forward lex) {starts : Terminal → Bool} {item : Parser α}
    {qs : List (α × List Step)} (each : ∀ q ∈ qs, ReadsAs lex starts item q.1 q.2)
    (run : Run lex s (qs.flatMap Prod.snd) s') (stop : s'.kind?.any starts = false) :
    many starts item s = .ok (qs.map Prod.fst, s') :=
  many_replays forward (fun q hq _ _ run => (each q hq).taken run) (fun q hq => (each q hq).head)
    run stop

/-- The steps of a struct are taken as it. -/
theorem structDef_replays (forward : Forward lex) {start name brace close : Token}
    {members : List DeclPiece} (struct : start.kind = .keyword .kwStruct)
    (named : name.kind = .name) (opened : brace.kind = .symbol .braceOpen)
    (closed : close.kind = .symbol .braceClose) (fits : ∀ m ∈ members, m.Fits)
    (run : Run lex s (⟨start, Expect.aName⟩ :: ⟨name, Expect.aBrace⟩ :: ⟨brace, Expect.entries⟩ ::
      (members.flatMap DeclPiece.steps ++ [⟨close, Expect.elements⟩])) s') :
    structDef lex s =
      .ok (⟨⟨start.start, close.stop⟩, word name, members.map DeclPiece.decl⟩, s') := by
  obtain ⟨s₁, run₁, run⟩ := run_cons.1 run
  obtain ⟨s₂, run₂, run⟩ := run_cons.1 run
  obtain ⟨s₃, run₃, run⟩ := run_cons.1 run
  obtain ⟨s₄, runMembers, runClose⟩ := run_append.1 run
  have stop : s₄.kind?.any isName = false := by
    rw [runClose.kind?_eq, closed]
    rfl
  have taken : many isName (unboundDecl lex) s₃ = .ok (members.map DeclPiece.decl, s₄) :=
    many_replays forward (fun m hm _ _ run => unboundDecl_replays forward (fits m hm) run)
      (fun m hm => (fits m hm).head) runMembers stop
  exact bind_eq_ok.2 ⟨_, s₁, takeKeyword_eq_ok.2 ⟨struct, run₁⟩, bind_eq_ok.2
    ⟨_, s₂, takeName_eq_ok.2 ⟨name, named, rfl, run₂⟩, bind_eq_ok.2
    ⟨_, s₃, takeSymbol_eq_ok.2 ⟨opened, run₃⟩, bind_eq_ok.2 ⟨_, s₄, taken, bind_eq_ok.2
    ⟨_, s', takeSymbol_eq_ok.2 ⟨closed, runClose⟩, pure_eq_ok.2 ⟨rfl, rfl⟩⟩⟩⟩⟩⟩

/-- The steps of the parts of a command are taken as them, up to its delimiter. -/
theorem commandParts_replays (forward : Forward lex) {style : CommandStyle}
    {parts : List PartPiece} (fits : ∀ q ∈ parts, q.Fits (.command style))
    (inner : ∀ q ∈ parts, ∀ x ∈ q.inner, Script .expr .placeholder x.expr x.steps)
    (run : Run lex s (parts.flatMap (PartPiece.steps (.command style))) s')
    (stop : s'.kind? = some (.symbol (commandClose style))) :
    commandParts lex style (commandHole style) s = .ok (parts.map PartPiece.part, s') := by
  have used := run.length_add_left forward
  have left := s.left_le
  have enough : parts.length ≤ (parts.flatMap (PartPiece.steps (.command style))).length :=
    length_le_length_flatMap fun q _ => by cases q <;> simp [PartPiece.steps]
  have both := @replays lex forward (2 * (s.cursor.rest.length + 1))
  rw [commandParts, remaining_bind]
  refine partsUpTo_replays forward (n := s.cursor.rest.length + 1) (both.2 _ (by omega))
    (both.1 _ (by omega)) ?_ fits inner (by omega) (by omega) run ?_
  · cases style <;> simp [Template.command, commandHole]
  · rw [stop]
    cases style <;> simp [Template.command, commandHole, commandClose]

/-- The steps of a command are taken as it. -/
theorem command_replays (forward : Forward lex) {p : CommandPiece} (fits : p.Fits)
    (inner : ∀ q ∈ p.parts, ∀ x ∈ q.inner, Script .expr .placeholder x.expr x.steps)
    (run : Run lex s p.steps s') : command lex s = .ok (p.command, s') := by
  obtain ⟨style, start, opening, parts, close⟩ := p
  obtain ⟨started, opened, each, closed⟩ := fits
  simp only at started opened each closed inner
  obtain ⟨s₁, run₁, run⟩ := run_cons.1 run
  obtain ⟨s₂, run₂, run⟩ := run_cons.1 run
  obtain ⟨s₃, runParts, runClose⟩ := run_append.1 run
  have stop : s₃.kind? = some (.symbol (commandClose style)) := by rw [runClose.kind?_eq, closed]
  have taken := commandParts_replays forward each inner runParts stop
  refine bind_eq_ok.2 ⟨_, s₁, takeKeyword_eq_ok.2 ⟨started, run₁⟩, sees_bind.2 ?_⟩
  cases style with
  | heredoc =>
    refine .inl ⟨run₂.kind?_eq.trans (congrArg some opened), bind_eq_ok.2
      ⟨_, s₂, shift_eq_ok.2 run₂, bind_eq_ok.2 ⟨_, s₃, taken, bind_eq_ok.2
      ⟨_, s', takeSymbol_eq_ok.2 ⟨closed, runClose⟩, pure_eq_ok.2 ⟨rfl, rfl⟩⟩⟩⟩⟩
  | braces =>
    refine .inr ⟨?_, bind_eq_ok.2 ⟨_, s₂, takeSymbol_eq_ok.2 ⟨opened, run₂⟩, bind_eq_ok.2
      ⟨_, s₃, taken, bind_eq_ok.2
      ⟨_, s', takeSymbol_eq_ok.2 ⟨closed, runClose⟩, pure_eq_ok.2 ⟨rfl, rfl⟩⟩⟩⟩⟩
    rw [run₂.kind?_eq, opened]
    simp [commandOpen]

/-- A task is read if the items in front of its command are. -/
theorem task_replays (forward : Forward lex) {start name brace close : Token} {p : CommandPiece}
    {before : List (TaskItem × List Step)} (task : start.kind = .keyword .kwTask)
    (named : name.kind = .name) (opened : brace.kind = .symbol .braceOpen)
    (closed : close.kind = .symbol .braceClose)
    (each : ∀ q ∈ before, ReadsAs lex startsTaskItem (taskItem lex) q.1 q.2) (fits : p.Fits)
    (inner : ∀ q ∈ p.parts, ∀ x ∈ q.inner, Script .expr .placeholder x.expr x.steps)
    (run : Run lex s (⟨start, Expect.aName⟩ :: ⟨name, Expect.aBrace⟩ ::
      ⟨brace, Expect.taskBody⟩ ::
        (before.flatMap Prod.snd ++ (p.steps ++ [⟨close, Expect.elements⟩]))) s') :
    Parser.task lex s = .ok (⟨⟨start.start, close.stop⟩, word name, before.map Prod.fst,
      p.command, []⟩, s') := by
  obtain ⟨s₁, run₁, run⟩ := run_cons.1 run
  obtain ⟨s₂, run₂, run⟩ := run_cons.1 run
  obtain ⟨s₃, run₃, run⟩ := run_cons.1 run
  obtain ⟨s₄, runBefore, run⟩ := run_append.1 run
  obtain ⟨s₅, runCommand, runClose⟩ := run_append.1 run
  have items : many startsTaskItem (taskItem lex) s₃ = .ok (before.map Prod.fst, s₄) := by
    refine many_reads forward each runBefore ?_
    rw [runCommand.kind?_eq, fits.start]
    rfl
  have behind : many startsTaskItem (taskItem lex) s₅ = .ok ([], s₅) := by
    refine many_nil ?_
    rw [runClose.kind?_eq, closed]
    rfl
  exact bind_eq_ok.2 ⟨_, s₁, takeKeyword_eq_ok.2 ⟨task, run₁⟩, bind_eq_ok.2
    ⟨_, s₂, takeName_eq_ok.2 ⟨name, named, rfl, run₂⟩, bind_eq_ok.2
    ⟨_, s₃, takeSymbol_eq_ok.2 ⟨opened, run₃⟩, bind_eq_ok.2 ⟨_, s₄, items, bind_eq_ok.2
    ⟨_, s₅, command_replays forward fits inner runCommand, bind_eq_ok.2
    ⟨_, s₅, behind, bind_eq_ok.2
    ⟨_, s', takeSymbol_eq_ok.2 ⟨closed, runClose⟩, pure_eq_ok.2 ⟨rfl, rfl⟩⟩⟩⟩⟩⟩⟩⟩

/-- A workflow is read if its items are. -/
theorem workflow_replays (forward : Forward lex) {start name brace close : Token}
    {items : List (WorkflowItem × List Step)} (workflow : start.kind = .keyword .kwWorkflow)
    (named : name.kind = .name) (opened : brace.kind = .symbol .braceOpen)
    (closed : close.kind = .symbol .braceClose)
    (each : ∀ q ∈ items, ReadsAs lex startsWorkflowItem (workflowItem lex) q.1 q.2)
    (run : Run lex s (⟨start, Expect.aName⟩ :: ⟨name, Expect.aBrace⟩ ::
      ⟨brace, Expect.workflowBody⟩ ::
        (items.flatMap Prod.snd ++ [⟨close, Expect.elements⟩])) s') :
    Parser.workflow lex s =
      .ok (⟨⟨start.start, close.stop⟩, word name, items.map Prod.fst⟩, s') := by
  obtain ⟨s₁, run₁, run⟩ := run_cons.1 run
  obtain ⟨s₂, run₂, run⟩ := run_cons.1 run
  obtain ⟨s₃, run₃, run⟩ := run_cons.1 run
  obtain ⟨s₄, runItems, runClose⟩ := run_append.1 run
  have taken : many startsWorkflowItem (workflowItem lex) s₃ = .ok (items.map Prod.fst, s₄) := by
    refine many_reads forward each runItems ?_
    rw [runClose.kind?_eq, closed]
    rfl
  exact bind_eq_ok.2 ⟨_, s₁, takeKeyword_eq_ok.2 ⟨workflow, run₁⟩, bind_eq_ok.2
    ⟨_, s₂, takeName_eq_ok.2 ⟨name, named, rfl, run₂⟩, bind_eq_ok.2
    ⟨_, s₃, takeSymbol_eq_ok.2 ⟨opened, run₃⟩, bind_eq_ok.2 ⟨_, s₄, taken, bind_eq_ok.2
    ⟨_, s', takeSymbol_eq_ok.2 ⟨closed, runClose⟩, pure_eq_ok.2 ⟨rfl, rfl⟩⟩⟩⟩⟩⟩

/-- The first token of an element tells which one it is. -/
theorem element_replays (forward : Forward lex) {x : Surface.Element} {xs : List Step}
    (steps : ElementSteps x xs) (run : Run lex s xs s') : element lex s = .ok (x, s') := by
  rw [element, peek_bind]
  cases steps with
  | version start identifier kind kind' =>
    rw [run.kind?_eq, kind]
    obtain ⟨s₁, run₁, run₂⟩ := run_cons.1 run
    exact bind_eq_ok.2 ⟨_, s₁, takeKeyword_eq_ok.2 ⟨kind, run₁⟩, bind_eq_ok.2
      ⟨_, s', take_eq_ok.2 ⟨kind', run₂⟩, pure_eq_ok.2 ⟨rfl, rfl⟩⟩⟩
  | struct start name brace close members kind named opened closed fits =>
    rw [run.kind?_eq, kind]
    exact bind_eq_ok.2 ⟨_, s', structDef_replays forward kind named opened closed fits run,
      pure_eq_ok.2 ⟨rfl, rfl⟩⟩
  | task start name brace close command kind named opened closed fits inner =>
    rw [run.kind?_eq, kind]
    exact bind_eq_ok.2 ⟨_, s', @task_replays _ _ _ forward _ _ _ _ _ [] kind named opened closed
      (by simp) fits inner run, pure_eq_ok.2 ⟨rfl, rfl⟩⟩

/-- The first token of an element is a keyword that starts one. -/
theorem ElementSteps.head {x : Surface.Element} {xs : List Step} (h : ElementSteps x xs) :
    ∃ y, xs.head? = some y ∧ startsElement y.token.kind = true := by
  cases h with
  | version start identifier kind => exact ⟨_, rfl, by simp [kind, startsElement]⟩
  | struct start name brace close members kind => exact ⟨_, rfl, by simp [kind, startsElement]⟩
  | task start name brace close command kind => exact ⟨_, rfl, by simp [kind, startsElement]⟩

/-- An element is read by the parser of elements. -/
theorem ElementSteps.reads (forward : Forward lex) {x : Surface.Element} {xs : List Step}
    (h : ElementSteps x xs) : ReadsAs lex startsElement (element lex) x xs :=
  ⟨h.head, element_replays forward h⟩

/-- Elements one behind the other are a document. -/
theorem document_replays (forward : Forward lex) (qs : List (Surface.Element × List Step))
    (each : ∀ q ∈ qs, ReadsAs lex startsElement (element lex) q.1 q.2)
    (run : Run lex s (qs.flatMap Prod.snd) s') (ends : s'.ahead = none) :
    document lex s = .ok (⟨qs.map Prod.fst⟩, s') := by
  have stop : s'.kind?.any startsElement = false := by simp [State.kind?, ends]
  exact bind_eq_ok.2 ⟨_, s', many_reads forward each run stop, pure_eq_ok.2 ⟨rfl, rfl⟩⟩

end Parser

/-! ## Texts around a piece

The piece stands on a line of its own, so that nothing in it goes on with the version in front. All
that is said of the positions is that the steps of the element start behind the version statement.
-/

/-- The lexemes of a version statement. -/
def versionLexemes (version : String) : List Lexeme :=
  [.keyword [] .kwVersion Expect.aVersion, ⟨space, .versionWord, version.toList, Expect.elements⟩]

/-- The lexemes of a version statement spell it. -/
theorem spelled_versionLexemes (version : String) :
    spelled (versionLexemes version) = ("version " ++ version).toList := by
  rw [String.toList_append]
  show Keyword.kwVersion.spelling ++ (space ++ (version.toList ++ [])) = _
  rw [List.append_nil, ← List.append_assoc]
  rfl

/-- Behind the keyword, only version identifiers are found. -/
theorem plain?_version (cs : List Char) :
    plain? fe Expect.aVersion cs =
      (Numeral.runLength? isVersionChar cs).map (Terminal.versionWord, ·) := by
  have number : number? fe Expect.aVersion cs = none := if_neg (by decide)
  have word : word? Expect.aVersion cs = none := by
    rw [word?, if_neg (by decide)]
    exact List.findSome?_eq_none_iff.2 fun k _ => if_neg (by simp [Expect.aVersion])
  have symbol : symbol? Expect.aVersion cs = none :=
    List.findSome?_eq_none_iff.2 fun s _ => if_neg (by simp [Expect.aVersion])
  have other : ∀ t f, t ≠ .versionWord → class? Expect.aVersion t f cs = none :=
    fun t f h => if_neg (by simpa [Expect.aVersion] using h)
  have here : class? Expect.aVersion .versionWord (Numeral.runLength? isVersionChar) cs =
      (Numeral.runLength? isVersionChar cs).map (Terminal.versionWord, ·) := if_pos (by decide)
  simp [plain?, number, word, symbol, other, here]

/-- A supported version is found as a version identifier. -/
theorem reads_version {version : String} (supported : version ∈ Build.supportedVersions) :
    fe.Reads Expect.aVersion space .versionWord version.toList ('\n' :: rest) := by
  have each : ∀ v ∈ Build.supportedVersions, v.toList ≠ [] ∧ v.toList.all isVersionChar = true ∧
      v.toList.head?.any isSolid = true := by decide
  obtain ⟨ne, all, solid⟩ := each version supported
  obtain ⟨c, cs, eq⟩ := List.exists_cons_of_ne_nil ne
  rw [eq] at all solid ⊢
  have run : Numeral.runLength? isVersionChar (c :: cs ++ '\n' :: rest) = some (c :: cs).length :=
    Numeral.runLength?_ended (by simp) (List.all_eq_true.1 all) (by simp [isVersionChar])
  refine .inr ⟨calm_literal? (by decide) _, ?_, ?_⟩
  · show layoutLength false (' ' :: (c :: cs ++ '\n' :: rest)) = 1
    have start := layoutLength_solid solid (cs ++ '\n' :: rest)
    rw [layoutLength]
    · simpa using start
    · rintro more eq
      cases eq
  · rw [plain?_version, run]
    rfl

/-- A supported version is found at the start of a text. -/
theorem versionLexemes_legible {version : String} (supported : version ∈ Build.supportedVersions) :
    Legible fe Expect.elements (versionLexemes version) ('\n' :: rest) := by
  refine ⟨reads_keyword_unnamed (by decide) (by decide) (.nil false) (by decide) ?_,
    reads_version supported, trivial⟩
  intro t
  cases t <;> decide

/-- The element of a version statement at the start of a text. -/
def versionElement (version : String) : Surface.Element :=
  .version ⟨0, 8 + version.toList.length⟩ ⟨⟨8, 8 + version.toList.length⟩, version⟩

/-- The lexemes of a version statement write it. -/
theorem versionLexemes_steps (version : String) :
    Parser.ElementSteps (versionElement version) (stepsFrom 0 (versionLexemes version)) := by
  have steps := Parser.ElementSteps.version ⟨.keyword .kwVersion, Keyword.kwVersion.spelling, 0⟩
    ⟨.versionWord, version.toList, 8⟩ rfl rfl
  rwa [Parser.word, Token.text, String.ofList_toList] at steps

/-- The surface form of a text that is a version statement and, on a line of its own, an
element. -/
theorem parse_around {version : String} (supported : version ∈ Build.supportedVersions)
    {x : Surface.Element} {cs more : List Char}
    (text : cs = spelled (versionLexemes version) ++ (spelled ls ++ ['\n']))
    (line : spelled ls = '\n' :: more) (legible : Legible fe Expect.elements ls ['\n'])
    (ends : lastExpect Expect.elements ls = Expect.elements)
    (reads : Parser.ReadsAs fe.next Parser.startsElement (Parser.element fe.next) x
      (stepsFrom (spelled (versionLexemes version)).length ls)) :
    Surface.Document.parse fe.next cs = .ok ⟨[versionElement version, x]⟩ := by
  have all : Legible fe Expect.elements (versionLexemes version ++ ls) ['\n'] := by
    refine legible_append.2 ⟨?_, legible⟩
    rw [line]
    exact versionLexemes_legible supported
  have terminated : Parser.terminated cs = spelled (versionLexemes version ++ ls) ++ ['\n'] := by
    rw [Parser.terminated, text, spelled_append, if_pos (by simp), List.append_assoc]
  have last : lastExpect Expect.elements (versionLexemes version ++ ls) = Expect.elements := by
    rw [lastExpect_append]
    exact ends
  refine all.whole terminated (by rw [last]; decide) rfl fun s s' run ended => ?_
  rw [stepsFrom_append, Nat.zero_add] at run
  refine Parser.document_replays (forward_next _) [(versionElement version, _), (x, _)] ?_
    (by simpa using run) ended
  intro q hq
  simp only [List.mem_cons, List.not_mem_nil, or_false] at hq
  rcases hq with rfl | rfl
  · exact (versionLexemes_steps version).reads (forward_next _)
  · exact reads

/-- A document is parsed that is a version statement and, on a line of its own, an element. -/
theorem parseDocument_around {version : String} (supported : version ∈ Build.supportedVersions)
    {x : Surface.Element} {X : Element} {more : List Char}
    (text : source.chars = spelled (versionLexemes version) ++ (spelled ls ++ ['\n']))
    (line : spelled ls = '\n' :: more) (legible : Legible rules.frontEnd Expect.elements ls ['\n'])
    (ends : lastExpect Expect.elements ls = Expect.elements)
    (steps : Parser.ElementSteps x (stepsFrom (spelled (versionLexemes version)).length ls))
    (built : (Build.element rules x).Returns (.element X)) :
    ∃ d, (parseDocument rules source).result = .ok d ∧ d.body = [X] := by
  have parsed := parse_around supported text line legible ends (steps.reads (forward_next _))
  exact ⟨_, Parsed.ofSurface_ok parsed (Build.document_returns rfl supported built), rfl⟩

/-- The lexemes that stand for an element in braces, up to what is in the braces. -/
def elementLexemes (k : Keyword) (name : String) (after : Expect) : List Lexeme :=
  [.keyword ['\n'] k Expect.aName, .name space name Expect.aBrace, .symbol space .braceOpen after]

/-- What stands in front of the contents of an element is found. -/
theorem elementLexemes_legible {k : Keyword} (element : k ∈ [.kwStruct, .kwTask, .kwWorkflow])
    {name : String} (word : IsWord name.toList) (after : Expect) :
    Legible fe Expect.elements (elementLexemes k name after) rest := by
  have start : ∀ rest, fe.Reads Expect.elements ['\n'] (.keyword k) k.spelling rest := by
    intro rest
    have each : ∀ k ∈ [Keyword.kwStruct, .kwTask, .kwWorkflow], .keyword k ∈ Expect.elements ∧
        ∀ t ∈ Keyword.all, .keyword t ∈ Expect.elements →
          t.spelling.head? = k.spelling.head? → t = k := by decide
    obtain ⟨mem, alone⟩ := each k element
    exact reads_keyword_unnamed (by decide) (by decide) (.newline (.nil false)) mem
      fun t => alone t t.mem_all
  have named : ∀ rest, fe.Reads Expect.aName space .name name.toList (space ++ rest) := fun rest =>
    reads_name (by decide) (by decide) .space word
      (by simp [Parted, space, isNameChar, isLetter, isAsciiDigit]) (by simp [Expect.aName])
  have opened : ∀ rest, fe.Reads Expect.aBrace space (.symbol .braceOpen) Symbol.braceOpen.spelling
      rest := fun rest =>
    reads_symbol (by decide) .space (by decide) (clear_of_unrivalled (by decide)) (by decide)
      (by simp)
  exact ⟨start _, named _, opened _, trivial⟩

/-- A closing brace is found on the next line. -/
theorem reads_braceClose (quiet : ordinary A = true) (mem : .symbol .braceClose ∈ A) :
    fe.Reads A ['\n'] (.symbol .braceClose) Symbol.braceClose.spelling rest := by
  refine reads_symbol quiet (.newline (.nil false)) mem ?_ (by decide) (by simp)
  have alone : ∀ t ∈ Symbol.all, Symbol.braceClose.spelling.isPrefixOf t.spelling = true →
      t = .braceClose := by
    decide
  intro t u _ eq ne
  obtain rfl := alone t t.mem_all (by simp [eq])
  exact absurd (List.self_eq_append_right.1 eq) ne

/-! ## A struct with one member -/

/-- A name is looked for, whatever word it is. -/
def nameFollows (A : Expect) : Bool :=
  ordinary A && A.contains .name && Keyword.all.all fun k => !A.contains (.keyword k)

/-- Where names are looked for and no keywords are, every word is found as a name. -/
theorem reads_name_behind {w : List Char} (follows : nameFollows A = true)
    (layout : Gap false gap false) (word : IsWord w) (parted : Parted rest) :
    fe.Reads A gap .name w rest := by
  simp only [nameFollows, Bool.and_eq_true, List.all_eq_true, Bool.not_eq_true'] at follows
  obtain ⟨⟨quiet, name⟩, unnamed⟩ := follows
  refine reads_name quiet (List.contains_iff_mem.1 name) layout word parted fun k looked => ?_
  exact absurd ((contains_of_mem looked).symm.trans (unnamed k k.mem_all)) (by decide)

/-- The names in a document of a struct with one member. -/
structure StructFrame where
  version : String
  name : String
  member : String

namespace StructFrame

/-- The document, with a text written as the type of the member. -/
def text (f : StructFrame) (type : String) : String :=
  "version " ++ f.version ++ "\nstruct " ++ f.name ++ " \x7b\n" ++ type ++ " " ++ f.member ++
    "\n\x7d\n"

/-- The version is supported, and the names may be given. -/
structure Fits (rules : Rules) (f : StructFrame) : Prop where
  version : f.version ∈ Build.supportedVersions
  name : IsWord f.name.toList ∧ f.name ∉ rules.reserved
  member : IsWord f.member.toList ∧ f.member ∉ rules.reserved

/-- Written as the type of the member, the text declares the member to be of a type, wherever the
types are. -/
def Declares (rules : Rules) (f : StructFrame) (type : String) (T : Ty) : Prop :=
  ∀ uri abspath, ∃ d r r' T',
    (parseDocument rules (.ofString (f.text type) uri abspath)).result = .ok d ∧
    d.body = [.structDef ⟨r, f.name, [⟨r', T', f.member, none⟩]⟩] ∧
    (Node.type T').same (.type T) = true

variable {f : StructFrame} {trail : List Char}

/-- The lexemes of the struct, given those of the type and the layout behind it. -/
def lexemes (f : StructFrame) (ls : List Lexeme) (trail : List Char) : List Lexeme :=
  elementLexemes .kwStruct f.name Expect.entries ++ (indented ['\n'] ls ++
    [.name (trail ++ space) f.member Expect.entries, .symbol ['\n'] .braceClose Expect.elements])

/-- The text of the document, with the type in the middle. -/
theorem toList_text (f : StructFrame) (type : String) :
    (f.text type).toList = ("version " ++ f.version).toList ++
      (("\nstruct " ++ f.name ++ " \x7b\n").toList ++
        (type.toList ++ ((" " ++ f.member ++ "\n\x7d").toList ++ ['\n']))) := by
  unfold text
  simp only [String.toList_append, List.append_assoc]
  rfl

/-- The lexemes of the struct spell its text. -/
theorem spelled_lexemes (f : StructFrame) {ls : List Lexeme} (ne : ls ≠ []) (trail : List Char) :
    spelled (f.lexemes ls trail) =
      ("\nstruct " ++ f.name ++ " \x7b\n").toList ++ spelled ls ++ trail ++
        (" " ++ f.member ++ "\n\x7d").toList := by
  simp only [lexemes, elementLexemes, spelled_cons, spelled_append, spelled_indented _ ne,
    spelled_nil, Lexeme.keyword, Lexeme.name, Lexeme.symbol, String.toList_append,
    List.append_assoc]
  rfl

/-- The lexemes of the struct are found if those of the type are. -/
theorem lexemes_legible (fits : f.Fits rules) {ls : List Lexeme}
    (legible : ∀ rest, Legible fe Expect.entries ls (trail ++ ' ' :: rest))
    (layout : Gap false trail false) (follows : nameFollows (lastExpect Expect.entries ls) = true) :
    Legible fe Expect.elements (f.lexemes ls trail) ['\n'] := by
  have close : fe.Reads Expect.entries ['\n'] (.symbol .braceClose) Symbol.braceClose.spelling
      ['\n'] := reads_braceClose (by decide) (by decide)
  have after : lastExpect Expect.elements (elementLexemes .kwStruct f.name Expect.entries) =
      Expect.entries := rfl
  refine legible_append.2 ⟨elementLexemes_legible (by decide) fits.name.1 _, ?_⟩
  rw [after]
  refine legible_append.2 ⟨?_, ?_, close, trivial⟩
  · have inner := (legible (f.member.toList ++ "\n\x7d\n".toList)).indented (by decide)
      (.newline (.nil false))
    simpa [Lexeme.name, Lexeme.symbol, Symbol.spelling, space] using inner
  · rw [lastExpect_indented]
    refine reads_name_behind follows (layout.append .space)
      fits.member.1 ?_
    simp [Parted, Lexeme.symbol, isNameChar, isLetter, isAsciiDigit]

/-- The lexemes write a struct with one member of a type that those of the type write. -/
theorem lexemes_steps (f : StructFrame) {ls : List Lexeme} {P : Surface.TypeExpr → Prop}
    (trail : List Char) (at_ : Nat)
    (writes : ∀ at_, ∃ t, Parser.TypeSteps t (stepsFrom at_ ls) ∧ P t) :
    ∃ r w r' t w', w.text = f.name ∧ w'.text = f.member ∧ P t ∧
      Parser.ElementSteps (.struct ⟨r, w, [⟨r', t, w', none⟩]⟩)
        (stepsFrom at_ (f.lexemes ls trail)) := by
  simp only [lexemes, elementLexemes, List.cons_append, List.nil_append]
  rw [stepsFrom, stepsFrom, stepsFrom, stepsFrom_append, stepsFrom_indented]
  generalize at_ + _ = a
  generalize a + _ = b
  generalize b + _ + List.length ['\n'] = c
  generalize b + _ + (spelled _).length = d
  obtain ⟨t, steps, holds⟩ := writes c
  let name := Lexeme.name (trail ++ space) f.member Expect.entries
  let close := Lexeme.symbol ['\n'] .braceClose Expect.elements
  have element := Parser.ElementSteps.struct
    ((Lexeme.keyword ['\n'] .kwStruct Expect.aName).step at_).token
    ((Lexeme.name space f.name Expect.aBrace).step a).token
    ((Lexeme.symbol space .braceOpen Expect.entries).step b).token
    (close.step (d + name.text.length)).token [⟨t, stepsFrom c ls, (name.step d).token⟩]
    rfl rfl rfl rfl (by simpa using ⟨steps, rfl⟩)
  simp only [List.flatMap_singleton, List.map_singleton, Parser.DeclPiece.steps, List.append_assoc,
    List.singleton_append] at element
  exact ⟨_, _, _, t, _, String.ofList_toList, String.ofList_toList, holds, element⟩

/-- What a text writes on its own, the member is declared to be. -/
theorem declares (fits : f.Fits rules) {written : String} {T : Ty} {ls : List Lexeme}
    (chars : written.toList = spelled ls ++ trail) (layout : Gap false trail false)
    (legible : ∀ rest, Legible rules.frontEnd Expect.entries ls (trail ++ ' ' :: rest))
    (follows : nameFollows (lastExpect Expect.entries ls) = true)
    (writes : ∀ at_, ∃ t, Parser.TypeSteps t (stepsFrom at_ ls) ∧
      ∃ T', Build.type t = .ok T' ∧ (Node.type T').same (.type T) = true) :
    f.Declares rules written T := by
  intro uri abspath
  have ne : ls ≠ [] := by
    rintro rfl
    obtain ⟨t, steps, -⟩ := writes 0
    exact steps.ne_nil rfl
  obtain ⟨r, w, r', t, w', name, member, ⟨T', type, same⟩, steps⟩ :=
    f.lexemes_steps trail (spelled (versionLexemes f.version)).length writes
  -- the two names pass their checks, so the struct is built around the type
  have allowed : ∀ u : Surface.Word, u.text ∉ rules.reserved → Build.checkName rules u = .ok () :=
    fun u free => if_neg (by simpa using free)
  have built : (Build.element rules (.struct ⟨r, w, [⟨r', t, w', none⟩]⟩)).Returns
      (.element (.structDef ⟨r, f.name, [⟨r', T', f.member, none⟩]⟩)) := by
    refine Builder.returns_bind (Builder.returns_check ?_) (Builder.returns_pure _)
    have decl : Build.decl rules ⟨r', t, w', none⟩ = .ok ⟨r', T', f.member, none⟩ := by
      simp [Build.decl, Build.initializer, type, allowed w' (member ▸ fits.member.2), member]
    have members : [⟨r', t, w', none⟩].mapM (Build.decl rules) =
        .ok [⟨r', T', f.member, none⟩] := Build.mapM_eq_ok.2 (.cons decl .nil)
    simp [Build.structDef, members, allowed w (name ▸ fits.name.2), Build.checkMembers, name]
  have text : (SourceText.ofString (f.text written) uri abspath).chars =
      spelled (versionLexemes f.version) ++ (spelled (f.lexemes ls trail) ++ ['\n']) := by
    rw [SourceText.chars_ofString, spelled_versionLexemes, spelled_lexemes f ne, toList_text, chars]
    simp only [List.append_assoc]
  have ends : lastExpect Expect.elements (f.lexemes ls trail) = Expect.elements := by
    simp only [lexemes, lastExpect_cons, lastExpect_append]
    rfl
  obtain ⟨d, result, body⟩ := parseDocument_around fits.version text rfl
    (lexemes_legible fits legible layout follows) ends steps built
  exact ⟨d, r, r', T', result, body, same⟩

end StructFrame

end Wdl
