import Wdl.Proofs.CommandText
import Wdl.Proofs.MetaTexts

/-!
# Wdl.Proofs.MetaNumbers -- numbers in meta sections are those of expressions

A meta section reads numbers by a rule of its own: a sign is part of the number, where an expression
applies operators to it. Still a number comes to the same in both, whatever the sign and notation.
To see it, a document is written around the section: a version statement, and a task or workflow
that holds nothing else.

* `MetaFrame.text` is the document, and `MetaFrame.lexemes` are its tokens behind the version.
  `MetaFrame.lexemes_legible` says that they are found.
* `Builder.Comes` and `Build.Settles` say what building comes to: a value of some kind, or what is
  wrong with the first number that is refused. `task_settled` and `workflow_settled` carry this from
  the section to the element.
* `MetaFrame.parses` is what the whole document comes to, and `MetaFrame.numbers_agree` compares it
  with the texts of the numbers, parsed on their own as expressions.

The same tokens are found by both front ends, so nothing here depends on which one it is.
-/

namespace Wdl

open Scan
open Wdl.Parser (EntryPiece Forward ReadsAs ReadsSection metaKindKeyword)

variable {α β : Type}

/-! ## What builders come to

Errors are compared too, so `Builder.Returns` is not enough here. -/

/-- A computation comes to a check, whatever was warned of before. -/
def Builder.Comes (b : Builder α) (c : Checked α) : Prop :=
  ∀ before, ∃ after, StateT.run (ExceptT.run b) before = (c, after)

namespace Builder

/-- A check comes to itself. -/
theorem comes_check (c : Checked α) : Comes (Build.check c) c := fun before => ⟨before, rfl⟩

/-- A value comes to itself. -/
theorem comes_pure (x : α) : Comes (pure x) (pure x) := fun before => ⟨before, rfl⟩

/-- A computation behind another comes to the check behind the other. -/
theorem comes_bind {b : Builder α} {c : Checked α} {f : α → Builder β} {g : α → Checked β}
    (first : b.Comes c) (rest : ∀ x, (f x).Comes (g x)) : (b >>= f).Comes (c >>= g) := by
  intro before
  obtain ⟨between, h⟩ := first before
  cases c with
  | error e =>
    refine ⟨between, ?_⟩
    rw [ExceptT.run_bind, StateT.run_bind, h]
    rfl
  | ok x =>
    obtain ⟨after, h'⟩ := rest x between
    refine ⟨after, ?_⟩
    rw [ExceptT.run_bind, StateT.run_bind, h]
    exact h'

end Builder

variable {rules : Rules} {fe : FrontEnd} {source : SourceText}

/-- A document of a version statement and one element is what becomes of the element. -/
theorem parseDocument_single {version : String} (supported : version ∈ Build.supportedVersions)
    {x : Surface.Element} {c : Checked Element}
    (parsed : Surface.Document.parse rules.frontEnd.next source.chars =
      .ok ⟨[versionElement version, x]⟩)
    (built : (Build.element rules x).Comes (c >>= fun X => pure (.element X))) :
    (∀ X, c = .ok X → ∃ d, (parseDocument rules source).result = .ok d ∧ d.body = [X]) ∧
      ∀ e, c = .error e →
        (parseDocument rules source).result = .error (.violated rules.frontEnd e) := by
  let V : Build.TopLevel := .version ⟨⟨0, 8 + version.toList.length⟩, version⟩
  have first : (Build.element rules (versionElement version)).Comes (.ok V) := by
    refine Builder.returns_bind (Builder.returns_check ?_) (Builder.returns_pure _)
    rw [Build.version, if_pos (List.contains_iff_mem.2 supported)]
  have each : (Build.each (Build.element rules) [versionElement version, x]).Comes _ :=
    Builder.comes_bind first fun _ => Builder.comes_bind (Builder.comes_bind built fun _ =>
      Builder.comes_bind (Builder.comes_pure []) fun _ => Builder.comes_pure _) fun _ =>
      Builder.comes_pure _
  have whole : (Build.document rules source ⟨[versionElement version, x]⟩).Comes _ :=
    Builder.comes_bind each fun items => Builder.comes_check (Build.assembleDocument source items)
  obtain ⟨after, run⟩ := whole []
  rw [parseDocument, parsed]
  simp only [Parsed.ofSurface, Parsed.ofBuilder, run]
  constructor
  · rintro X rfl
    cases X <;> exact ⟨_, rfl, rfl⟩
  · rintro e rfl
    rfl

/-! ## Sections -/

/-- The section of a kind with some entries. -/
def Build.sectionOf (kind : Surface.MetaKind) (entries : List (String × Meta)) : Section :=
  match kind with
  | .metaSection => .metadata entries
  | .parameterMeta => .parameterMeta entries

/-- The entries of the meta section of a kind in a task or workflow. -/
def Element.metaEntries (kind : Surface.MetaKind) : Element → List (String × Meta)
  | .task t => match kind with
    | .metaSection => t.metadata
    | .parameterMeta => t.parameterMeta
  | .workflow w => match kind with
    | .metaSection => w.metadata
    | .parameterMeta => w.parameterMeta
  | _ => []

/-- The lexemes of a meta section on a line of its own. -/
def metaSectionLexemes (kind : Surface.MetaKind) (members : List (String × MetaTerm)) :
    List Lexeme :=
  .keyword ['\n'] (metaKindKeyword kind) Expect.aBrace :: (MetaTerm.object members).lexemes space

variable {members : List (String × MetaTerm)} {kind : Surface.MetaKind} {lex : Scanner}
  {A : Expect} {ls : List Lexeme} {rest : List Char}

/-- A meta section is legible in a task or workflow. -/
theorem metaSection_legible (keyed : (MetaTerm.object members).WellKeyed)
    (hA : A ∈ [Expect.taskBody, Expect.workflowBody]) (kind : Surface.MetaKind)
    (legible : Legible fe Expect.afterMetaObject ls rest) :
    Legible fe A (metaSectionLexemes kind members ++ ls) rest := by
  have each : ∀ A ∈ [Expect.taskBody, Expect.workflowBody],
      ∀ k ∈ [Keyword.kwMeta, .kwParameterMeta],
        ordinary A = true ∧ .name ∈ A ∧ .keyword k ∈ A := by decide
  obtain ⟨quiet, name, mem⟩ := each A hA (metaKindKeyword kind) (by cases kind <;> decide)
  cases keyed with
  | object distinct words keyed =>
    have object : Legible fe Expect.aBrace ((MetaTerm.object members).lexemes space ++ ls) rest :=
      legible_object words (fun m hm => (keyed m hm).found) (by decide) (by decide) (by decide)
        .space legible
    refine ⟨reads_keyword quiet name (.newline (.nil false)) mem ?_, object⟩
    rintro c ⟨⟩
    decide

/-- A meta section is read, and settles as what is written. -/
theorem metaSection_written (forward : Forward lex) (keyed : (MetaTerm.object members).WellKeyed)
    (kind : Surface.MetaKind) (at_ : Nat) :
    ∃ s : Surface.MetaSection,
      ReadsSection lex kind s (stepsFrom at_ (metaSectionLexemes kind members)) ∧
      Build.Settles (firstRefusal (entryNumbers members))
        (fun S => ∃ entries, S = Build.sectionOf kind entries ∧ EntriesAgree rules members entries)
        (Build.metaSection rules.names s) := by
  cases keyed with
  | object distinct words keyed =>
    rw [metaSectionLexemes, MetaTerm.lexemes, stepsFrom, stepsFrom, stepsFrom_append]
    generalize at_ + (Lexeme.text _).length = behind
    obtain ⟨ps, taken, settled, commas⟩ := @object_pieces rules lex members distinct
      (fun m hm => (keyed m hm).written forward)
      (behind + (Lexeme.symbol space .braceOpen Expect.entries).text.length)
    refine ⟨_, ⟨⟨_, rfl, beq_self_eq_true _⟩, fun run =>
      Parser.metaSection_replays forward rfl rfl rfl taken commas run⟩, ?_⟩
    have built : ∀ s : Surface.MetaSection, Build.metaSection rules.names s =
        (Build.metaEntries rules.names s.members >>= Build.distinct .repeatedKey []) >>=
          fun entries =>
          pure (Build.sectionOf s.kind entries) := by
      intro s
      rw [Build.metaSection, bind_assoc]
      rfl
    rw [built]
    exact Build.settles_then settled fun entries agree => ⟨_, rfl, entries, rfl, agree⟩

/-! ## Tasks and workflows -/

section elements

variable {s : Surface.MetaSection} {xs : List Parser.Step} {refusal : Option Violation}

/-- A workflow with a meta section and nothing else settles as the section does. -/
theorem workflow_settled {w : Surface.Word} (free : w.text ∉ rules.reserved) (r : Range)
    (settled : Build.Settles refusal
      (fun S => ∃ entries, S = Build.sectionOf kind entries ∧ EntriesAgree rules members entries)
      (Build.metaSection rules.names s)) :
    ∃ c : Checked Element,
      (Build.element rules (.workflow ⟨r, w, [.metadata s]⟩)).Comes
        (c >>= fun X => pure (.element X)) ∧
      Build.Settles refusal (fun X => EntriesAgree rules members (X.metaEntries kind)) c := by
  have named : Build.checkName rules w = .ok () := if_neg (by simpa using free)
  refine ⟨Build.workflow rules ⟨r, w, [.metadata s]⟩ >>= fun W => pure (.workflow W), ?_, ?_⟩
  · rw [bind_assoc]
    exact Builder.comes_bind (Builder.comes_check _) fun _ => Builder.comes_pure _
  · have whole : Build.workflow rules ⟨r, w, [.metadata s]⟩ =
        Build.metaSection rules.names s >>= fun S =>
        Build.assembleWorkflow r w.text [.block s.range S] := by
      rw [Build.workflow, List.mapM_cons, Build.workflowItem, named]
      simp only [List.mapM_nil, bind_assoc, pure_bind]
      rfl
    rw [whole, bind_assoc]
    refine Build.settles_then settled ?_
    rintro _ ⟨entries, rfl, agree⟩
    cases kind <;> exact ⟨_, rfl, agree⟩

/-- A task with a meta section and an empty command settles as the section does. -/
theorem task_settled {w : Surface.Word} (free : w.text ∉ rules.reserved) (r r' : Range)
    (settled : Build.Settles refusal
      (fun S => ∃ entries, S = Build.sectionOf kind entries ∧ EntriesAgree rules members entries)
      (Build.metaSection rules.names s)) :
    ∃ c : Checked Element,
      (Build.element rules (.task ⟨r, w, [.metadata s], ⟨r', .braces, []⟩, []⟩)).Comes
        (c >>= fun X => pure (.element X)) ∧
      Build.Settles refusal (fun X => EntriesAgree rules members (X.metaEntries kind)) c := by
  have named : Build.checkName rules w = .ok () := if_neg (by simpa using free)
  obtain ⟨C, command⟩ : ∃ C, (Build.command rules ⟨r', .braces, []⟩).Comes (.ok C) := by
    exact ⟨_, fun before => ⟨_, rfl⟩⟩
  refine ⟨Build.metaSection rules.names s >>= fun S =>
    Build.assembleTask r w.text [.block s.range S] C >>= fun T => pure (.task T), ?_, ?_⟩
  · have items : (Build.each (Build.taskItem rules) [.metadata s]).Comes _ :=
      Builder.comes_bind (Builder.comes_bind
        (Builder.comes_check (Build.metaSection rules.names s)) fun _ =>
        Builder.comes_pure _) fun _ => Builder.comes_bind (Builder.comes_pure []) fun _ =>
          Builder.comes_pure _
    have whole : (Build.element rules
        (.task ⟨r, w, [.metadata s], ⟨r', .braces, []⟩, []⟩)).Comes _ :=
      Builder.comes_bind (Builder.comes_bind items fun _ => Builder.comes_bind command fun _ =>
        Builder.comes_bind (Builder.comes_pure []) fun _ =>
          Builder.comes_bind (Builder.comes_check (Build.checkName rules w)) fun _ =>
            Builder.comes_check _) fun _ => Builder.comes_pure _
    -- the command and the name break no rule, so the section decides
    intro before
    obtain ⟨after, run⟩ := whole before
    refine ⟨after, run.trans ?_⟩
    rw [named]
    cases Build.metaSection rules.names s <;> rfl
  · refine Build.settles_then settled ?_
    rintro _ ⟨entries, rfl, agree⟩
    cases kind <;> exact ⟨_, rfl, agree⟩

end elements

/-- What a meta section may stand in: a task with an empty command, or a workflow. -/
inductive Owner where
  | task
  | workflow

namespace Owner

/-- The keyword of a task or workflow. -/
def keyword : Owner → Keyword
  | .task => .kwTask
  | .workflow => .kwWorkflow

/-- What is looked for where the body starts. -/
def body : Owner → Expect
  | .task => Expect.taskBody
  | .workflow => Expect.workflowBody

/-- What stands behind the section. -/
def ending : Owner → String
  | .task => "\ncommand \x7b\x7d\n\x7d"
  | .workflow => "\n\x7d"

/-- The lexemes of what stands behind the section. -/
def closing : Owner → List Lexeme
  | .task => [.keyword ['\n'] .kwCommand Expect.commandOpen,
      .symbol space .braceOpen (Expect.inCommand .braces),
      .symbol [] .braceClose Expect.afterCommand, .symbol ['\n'] .braceClose Expect.elements]
  | .workflow => [.symbol ['\n'] .braceClose Expect.elements]

/-- The lexemes behind the section spell what stands behind it. -/
theorem spelled_closing (o : Owner) : spelled o.closing = o.ending.toList := by
  cases o <;> rfl

/-- The lexemes behind the section are found. -/
theorem closing_legible (o : Owner) :
    Legible fe Expect.afterMetaObject o.closing ['\n'] := by
  cases o with
  | workflow => exact ⟨reads_braceClose (by decide) (by decide), trivial⟩
  | task =>
    refine ⟨reads_keyword (by decide) (by decide) (.newline (.nil false)) (by decide) ?_,
      reads_symbol (A := Expect.commandOpen) (by decide) .space (by decide)
        (clear_of_unrivalled (by decide)) (by decide) (by simp), ?_,
      reads_braceClose (A := Expect.afterCommand) (by decide) (by decide), trivial⟩
    · rintro c ⟨⟩
      decide
    · exact @reads_commandClose fe (Expect.inCommand .braces) .braces (.inl rfl) _

end Owner

/-- A document of a version statement and a task or workflow with one meta section. -/
structure MetaFrame where
  version : String
  owner : Owner
  name : String
  kind : Surface.MetaKind

namespace MetaFrame

/-- The document, with an object as the section. -/
def text (f : MetaFrame) (object : String) : String :=
  "version " ++ f.version ++ "\n" ++ String.ofList f.owner.keyword.spelling ++ " " ++ f.name ++
    " \x7b\n" ++ String.ofList (metaKindKeyword f.kind).spelling ++ " " ++ object ++
    f.owner.ending ++ "\n"

/-- The version is supported, and the name may be given. -/
structure Fits (rules : Rules) (f : MetaFrame) : Prop where
  version : f.version ∈ Build.supportedVersions
  name : IsWord f.name.toList ∧ f.name ∉ rules.reserved

/-- The lexemes of the task or workflow. -/
def lexemes (f : MetaFrame) (members : List (String × MetaTerm)) : List Lexeme :=
  elementLexemes f.owner.keyword f.name f.owner.body ++
    (metaSectionLexemes f.kind members ++ f.owner.closing)

variable {f : MetaFrame}

/-- The document is spelled by the lexemes of the version and of the element. -/
theorem toList_text (keyed : (MetaTerm.object members).WellKeyed) :
    (f.text (MetaTerm.object members).text).toList =
      spelled (versionLexemes f.version) ++ (spelled (f.lexemes members) ++ ['\n']) := by
  have line : "\n".toList = ['\n'] := rfl
  have gap : " ".toList = space := rfl
  have opened : " \x7b\n".toList = space ++ (Symbol.braceOpen.spelling ++ ['\n']) := rfl
  have object := MetaTerm.spelled_lexemes keyed space
  unfold text lexemes
  generalize (MetaTerm.object members).text = object at *
  rw [spelled_versionLexemes, spelled_append, spelled_append, elementLexemes, metaSectionLexemes,
    spelled_cons, spelled_cons, spelled_cons, spelled_nil, spelled_cons, object,
    Owner.spelled_closing]
  simp only [String.toList_append, String.toList_ofList, List.append_assoc, List.nil_append, line,
    gap, opened]
  rfl

/-- The lexemes of the element are found in front of the end of the text. -/
theorem lexemes_legible (fits : f.Fits rules) (keyed : (MetaTerm.object members).WellKeyed) :
    Legible fe Expect.elements (f.lexemes members) ['\n'] := by
  have element : f.owner.keyword ∈ [Keyword.kwStruct, .kwTask, .kwWorkflow] := by
    cases f.owner <;> decide
  have body : f.owner.body ∈ [Expect.taskBody, Expect.workflowBody] := by
    cases f.owner <;> decide
  exact legible_append.2 ⟨elementLexemes_legible element fits.name.1 _,
    metaSection_legible keyed body f.kind f.owner.closing_legible⟩

/-- Behind the element, another one is looked for. -/
theorem lastExpect_lexemes (f : MetaFrame) (members : List (String × MetaTerm)) :
    lastExpect Expect.elements (f.lexemes members) = Expect.elements := by
  rw [lexemes, lastExpect_append, lastExpect_append]
  cases f.owner <;> rfl

/-- The task or workflow is read, and settles as its section does. -/
theorem written (forward : Forward lex) (fits : f.Fits rules)
    (keyed : (MetaTerm.object members).WellKeyed) (at_ : Nat) :
    ∃ x c, ReadsAs lex Parser.startsElement (Parser.element lex) x
        (stepsFrom at_ (f.lexemes members)) ∧
      (Build.element rules x).Comes (c >>= fun X => pure (.element X)) ∧
      Build.Settles (firstRefusal (entryNumbers members))
        (fun X => EntriesAgree rules members (X.metaEntries f.kind)) c := by
  rw [lexemes, elementLexemes, stepsFrom_append, stepsFrom_append, stepsFrom, stepsFrom, stepsFrom,
    stepsFrom]
  -- where the tokens are makes no difference
  generalize at_ + (Lexeme.text _).length = a
  generalize a + (Lexeme.text _).length = b
  generalize at_ + (spelled _).length = c
  generalize c + (spelled _).length = d
  obtain ⟨version, owner, name, kind⟩ := f
  obtain ⟨s, reads, settled⟩ := @metaSection_written rules members lex forward keyed kind c
  let named := (Lexeme.name space name Expect.aBrace).token a
  have free : (Parser.word named).text ∉ rules.reserved := by
    show named.text ∉ rules.reserved
    rw [text_name]
    exact fits.name.2
  cases owner with
  | workflow =>
    let start := (Lexeme.keyword ['\n'] .kwWorkflow Expect.aName).token at_
    let brace := (Lexeme.symbol space .braceOpen Expect.workflowBody).token b
    let close := (Lexeme.symbol ['\n'] .braceClose Expect.elements).token d
    obtain ⟨C, comes, settles⟩ := workflow_settled free ⟨start.start, close.stop⟩ settled
    exact ⟨_, C, reads.workflow forward start named brace close rfl rfl rfl rfl, comes, settles⟩
  | task =>
    let start := (Lexeme.keyword ['\n'] .kwTask Expect.aName).token at_
    let brace := (Lexeme.symbol space .braceOpen Expect.taskBody).token b
    let p : Parser.CommandPiece := ⟨.braces,
      (Lexeme.keyword ['\n'] .kwCommand Expect.commandOpen).token d,
      (Lexeme.symbol space .braceOpen (Expect.inCommand .braces)).token (d + 8), [],
      (Lexeme.symbol [] .braceClose Expect.afterCommand).token (d + 8 + 2)⟩
    let close := (Lexeme.symbol ['\n'] .braceClose Expect.elements).token (d + 8 + 2 + 1)
    obtain ⟨C, comes, settles⟩ := task_settled free ⟨start.start, close.stop⟩
      ⟨p.start.start, p.close.stop⟩ settled
    exact ⟨_, C, reads.task forward start named brace close rfl rfl rfl rfl
      ⟨rfl, rfl, by simp [p], rfl⟩ (by simp [p]), comes, settles⟩

/-- Building the document comes to what its section settles as. -/
theorem parses (fits : f.Fits rules) (keyed : (MetaTerm.object members).WellKeyed)
    (text : source.chars = (f.text (MetaTerm.object members).text).toList) :
    match firstRefusal (entryNumbers members) with
    | none => ∃ d X, (parseDocument rules source).result = .ok d ∧ d.body = [X] ∧
        EntriesAgree rules members (X.metaEntries f.kind)
    | some v => ∃ r, (parseDocument rules source).result =
        .error (.violated rules.frontEnd ⟨v, r⟩) := by
  rw [toList_text keyed] at text
  obtain ⟨x, c, reads, comes, settles⟩ := written (forward_next rules.frontEnd) fits keyed
    (spelled (versionLexemes f.version)).length
  have parsed := parse_around fits.version text rfl (lexemes_legible fits keyed)
    (f.lastExpect_lexemes members) reads
  obtain ⟨accepts, refuses⟩ := parseDocument_single fits.version parsed comes
  cases first : firstRefusal (entryNumbers members) with
  | none =>
    rw [first] at settles
    obtain ⟨X, built, agree⟩ := settles
    obtain ⟨d, result, body⟩ := accepts X built
    exact ⟨d, X, result, body, agree⟩
  | some v =>
    rw [first] at settles
    obtain ⟨r, failed⟩ := settles
    exact ⟨r, refuses _ failed⟩

/-- The numbers of a meta section, however deep in arrays and objects, agree with the same texts as
expressions, in either front end: the document is accepted just if each of the texts is; then each
number is of the same kind, with the same value and notation, and spans as many characters as the
expression; and otherwise the document is refused for the same reason as the first of the texts that
is refused. -/
theorem numbers_agree (fits : f.Fits rules) (keyed : (MetaTerm.object members).WellKeyed)
    (text : source.chars = (f.text (MetaTerm.object members).text).toList) :
    ((∃ d, (parseDocument rules source).result = .ok d) ↔
      ∀ w ∈ (MetaTerm.object members).numbers, w.Accepted rules) ∧
    (∀ d, (parseDocument rules source).result = .ok d →
      ∃ X, d.body = [X] ∧ EntriesAgree rules members (X.metaEntries f.kind)) ∧
    ∀ E, (parseDocument rules source).result = .error E →
      ∃ before w after v r, (MetaTerm.object members).numbers = before ++ w :: after ∧
        (∀ b ∈ before, b.Accepted rules) ∧ w.Refused rules v ∧
        E = .violated rules.frontEnd ⟨v, r⟩ := by
  have parses := parses fits keyed text
  have numbers : (MetaTerm.object members).numbers = entryNumbers members := rfl
  rw [numbers]
  cases first : firstRefusal (entryNumbers members) with
  -- no number is refused, so the document is accepted, and so is each of the texts
  | none =>
    rw [first] at parses
    obtain ⟨d, X, result, body, agree⟩ := parses
    have accepted : ∀ w ∈ entryNumbers members, w.Accepted rules := fun w hw =>
      w.accepted_iff.2 (List.findSome?_eq_none_iff.1 first w hw)
    rw [result]
    refine ⟨iff_of_true ⟨d, rfl⟩ accepted, ?_, ?_⟩
    · rintro _ ⟨⟩
      exact ⟨X, body, agree⟩
    · rintro E ⟨⟩
  -- the first number that is refused is refused for the same reason on its own
  | some v =>
    rw [first] at parses
    obtain ⟨r, result⟩ := parses
    obtain ⟨before, w, after, split, refused, fine⟩ := List.findSome?_eq_some_iff.1 first
    have mem : w ∈ entryNumbers members := by simp [split]
    rw [result]
    refine ⟨iff_of_false (by simp) fun accepted => ?_, by rintro d ⟨⟩, ?_⟩
    · rw [w.accepted_iff.1 (accepted w mem)] at refused
      cases refused
    · rintro E ⟨⟩
      exact ⟨before, w, after, v, r, split, fun b hb => b.accepted_iff.2 (fine b hb),
        NumberText.refused_of_refusal refused, rfl⟩

/-- An octal number behind a sign, in an array, and a floating-point number behind a sign and a
space, in an object in that array. -/
theorem numbers_agree_nested :
    let rules : Rules := ⟨.flat, reservedWords, .none⟩
    let octal : NumberText := ⟨some (.minus, []), .octal, ['0', '1', '7'],
      by rintro _ ⟨⟩; exact .nil false, fun fe => by cases fe <;> decide⟩
    let float : NumberText := ⟨some (.plus, space), .float, ['1', '.', '5'],
      by rintro _ ⟨⟩; exact .space, fun fe => by cases fe <;> decide⟩
    let members := [("a", MetaTerm.array [.number octal, .object [("b", .number float)]])]
    let source := SourceText.ofString
      "version 1.1\nworkflow w \x7b\nmeta \x7ba: [-017, \x7bb: + 1.5\x7d]\x7d\n\x7d\n" "" ""
    ∃ d X, (parseDocument rules source).result = .ok d ∧ d.body = [X] ∧
      EntriesAgree rules members (X.metaEntries .metaSection) := by
  intro rules octal float members source
  have inner : (MetaTerm.object [("b", .number float)]).WellKeyed :=
    .object (by decide) (by decide) (by simpa using .number float)
  have items : (MetaTerm.array [.number octal, .object [("b", .number float)]]).WellKeyed :=
    .array (by simpa using ⟨.number octal, inner⟩)
  have keyed : (MetaTerm.object members).WellKeyed :=
    .object (by decide) (by decide) (by simpa [members] using items)
  obtain ⟨accepts, agrees, -⟩ := @numbers_agree rules source members
    ⟨"1.1", .workflow, "w", .metaSection⟩ ⟨by decide, by decide⟩ keyed (by decide +kernel)
  have accepted : ∀ w ∈ (MetaTerm.object members).numbers, w.Accepted rules := by
    intro w hw
    have either : w = octal ∨ w = float := by
      simpa [members, MetaTerm.numbers, itemNumbers, entryNumbers] using hw
    rcases either with rfl | rfl
    · exact octal.accepted_iff.2 (by decide)
    · exact float.accepted_iff.2 rfl
  obtain ⟨d, result⟩ := accepts.2 accepted
  obtain ⟨X, body, agree⟩ := agrees d result
  exact ⟨d, X, result, body, agree⟩

end MetaFrame

end Wdl
