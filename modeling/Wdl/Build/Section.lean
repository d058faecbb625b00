import Wdl.Ast.Document
import Wdl.Build.Violation

/-!
# Wdl.Build.Section -- putting sections and elements together

The items of a task or workflow are sorted into its fields, whatever their order; a section may
occur once. The elements of a document follow its version statement; there is one workflow at most.
-/

namespace Wdl.Build

/-! ## Sections of tasks and workflows -/

/-- The sections that a task or workflow can have. -/
inductive SectionKind where
  | inputs | outputs | metadata | parameterMeta | runtime
deriving DecidableEq, Repr, Inhabited

/-- How a kind of section is called. -/
def SectionKind.name : SectionKind → String
  | .inputs => "inputs"
  | .outputs => "outputs"
  | .metadata => "meta"
  | .parameterMeta => "parameter_meta"
  | .runtime => "runtime"

/-- A section that is built. -/
inductive Section where
  | inputs (decls : List Decl)
  | outputs (decls : List Decl)
  | metadata (members : List (String × Meta))
  | parameterMeta (members : List (String × Meta))
  | runtime (entries : List (String × Expr))

/-- The kind of a section. -/
def Section.kind : Section → SectionKind
  | .inputs _ => .inputs
  | .outputs _ => .outputs
  | .metadata _ => .metadata
  | .parameterMeta _ => .parameterMeta
  | .runtime _ => .runtime

/-- An item of a task or workflow: a section and where it is, or something else. -/
inductive Item (α : Type) where
  | block (range : Range) (s : Section)
  | other (x : α)

variable {α : Type}

/-- The sections among some items, in order. -/
def sectionsOf (items : List (Item α)) : List (Range × Section) :=
  items.filterMap fun item => match item with
    | .block r s => some (r, s)
    | .other _ => none

/-- The other items, in order. -/
def othersOf (items : List (Item α)) : List α :=
  items.filterMap fun item => match item with
    | .block _ _ => none
    | .other x => some x

/-- The first section of a kind that has occurred before, given the kinds that have. -/
def repeatedAfter : List SectionKind → List (Range × Section) → Option (Range × SectionKind)
  | _, [] => none
  | seen, (r, s) :: rest =>
    if seen.contains s.kind then some (r, s.kind) else repeatedAfter (s.kind :: seen) rest

/-- Checks that no kind of section occurs twice. -/
def checkSections (owner : String) (items : List (Item α)) : Except Violated Unit :=
  match repeatedAfter [] (sectionsOf items) with
  | some (r, kind) => .error ⟨.repeatedSection kind.name owner, r⟩
  | none => .ok ()

/-- The declarations of the input section. -/
def inputsOf (ss : List Section) : List Decl :=
  (ss.findSome? fun s => match s with
    | .inputs decls => some decls
    | _ => none).getD []

/-- The declarations of the output section. -/
def outputsOf (ss : List Section) : List Decl :=
  (ss.findSome? fun s => match s with
    | .outputs decls => some decls
    | _ => none).getD []

/-- The members of the meta section. -/
def metadataOf (ss : List Section) : List (String × Meta) :=
  (ss.findSome? fun s => match s with
    | .metadata members => some members
    | _ => none).getD []

/-- The members of the parameter meta section. -/
def parameterMetaOf (ss : List Section) : List (String × Meta) :=
  (ss.findSome? fun s => match s with
    | .parameterMeta members => some members
    | _ => none).getD []

/-- The entries of the runtime section. -/
def runtimeOf (ss : List Section) : List (String × Expr) :=
  (ss.findSome? fun s => match s with
    | .runtime entries => some entries
    | _ => none).getD []

/-- Puts a task together. -/
def assembleTask (r : Range) (name : String) (items : List (Item Decl)) (command : Command) :
    Except Violated Task := do
  checkSections "task" items
  let ss := (sectionsOf items).map Prod.snd
  return {
    range := r, name, command
    inputs := inputsOf ss
    postinputs := othersOf items
    outputs := outputsOf ss
    parameterMeta := parameterMetaOf ss
    runtime := runtimeOf ss
    metadata := metadataOf ss }

/-- Puts a workflow together. -/
def assembleWorkflow (r : Range) (name : String) (items : List (Item WorkflowNode)) :
    Except Violated Workflow := do
  checkSections "workflow" items
  let ss := (sectionsOf items).map Prod.snd
  return {
    range := r, name
    inputs := inputsOf ss
    body := othersOf items
    outputs := outputsOf ss
    parameterMeta := parameterMetaOf ss
    metadata := metadataOf ss }

/-! ## Elements of documents -/

/-- An element of a document, its version statement included. -/
inductive TopLevel where
  | version (v : Version)
  | element (e : Element)

/-- What the elements of a document have been put together to. -/
structure Assembled where
  version : Option Version
  hasWorkflow : Bool
  body : List Element

/-- Adds one element. -/
def Assembled.add (a : Assembled) : TopLevel → Except Violated Assembled
  | .version v =>
    if a.version.isSome then .error ⟨.secondVersion, v.range⟩
    else if !a.body.isEmpty then .error ⟨.lateVersion, v.range⟩
    else .ok { a with version := some v }
  | .element (.workflow w) =>
    if a.hasWorkflow then .error ⟨.secondWorkflow, w.range⟩
    else .ok { a with hasWorkflow := true, body := a.body ++ [.workflow w] }
  | .element e => .ok { a with body := a.body ++ [e] }

/-- The version of what was put together. Without one, the place is where the first element
starts, or else the start of the text. -/
def Assembled.requireVersion (a : Assembled) : Except Violated Version :=
  match a.version with
  | some v => .ok v
  | none =>
    let start := (a.body.head?.map fun e => e.range.start).getD 0
    .error ⟨.missingVersion, ⟨start, start⟩⟩

/-- Puts a document together. -/
def assembleDocument (source : SourceText) (items : List TopLevel) : Except Violated Document := do
  let a ← items.foldlM Assembled.add ⟨none, false, []⟩
  let version ← a.requireVersion
  return ⟨source.wholeRange, version, a.body, source⟩

end Wdl.Build
