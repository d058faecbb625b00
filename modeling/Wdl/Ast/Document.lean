import Wdl.Ast.Expr
import Wdl.Ast.Ty
import Wdl.Text.Source

/-!
# Wdl.Ast.Document -- meta values, tasks, workflows and documents

Sections are sorted into fields of their task or workflow, whatever order they were written in.
Mappings are lists of entries in the order written; no key occurs twice.
-/

namespace Wdl

/-- A value in a meta section. -/
inductive Meta where
  | null (range : Range)
  | boolean (range : Range) (value : Bool)
  | int (range : Range) (value : Int) (radix : Radix)
  | float (range : Range) (value : Binary64)
  | string (range : Range) (value : Text)
  | array (range : Range) (items : List Meta)
  | object (range : Range) (members : List (String × Meta))

/-- Where a meta value is. -/
def Meta.range : Meta → Range
  | .null r | .boolean r _ | .int r _ _ | .float r _ | .string r _ | .array r _ | .object r _ => r

/-- The language version a document is written in. -/
structure Version where
  range : Range
  identifier : String
deriving DecidableEq, Repr

/-- An import. -/
structure Import where
  range : Range
  uri : Text
  namespaceName : String
  aliases : List (String × String)
deriving DecidableEq, Repr

/-- A declaration. -/
structure Decl where
  range : Range
  type : Ty
  name : String
  expr : Option Expr

/-- A struct definition. -/
structure StructDef where
  range : Range
  name : String
  members : List Decl

/-- The types of the members of a struct, by name. -/
def StructDef.memberTypes (s : StructDef) : List (String × Ty) :=
  s.members.map fun d => (d.name, d.type)

/-- A command template. -/
structure Command where
  range : Range
  parts : List Part
  heredoc : Bool

/-- A task. -/
structure Task where
  range : Range
  name : String
  inputs : List Decl
  postinputs : List Decl
  command : Command
  outputs : List Decl
  parameterMeta : List (String × Meta)
  runtime : List (String × Expr)
  metadata : List (String × Meta)

/-- A call. -/
structure Call where
  range : Range
  callee : List String
  givenName : Option String
  inputs : List (String × Expr)

/-- The name of a call: the one given to it, or else that of what is called. -/
def Call.name (c : Call) : String := c.givenName.getD (c.callee.getLast?.getD "")

/-- An element of a workflow's body. -/
inductive WorkflowNode where
  | decl (d : Decl)
  | call (c : Call)
  | scatter (range : Range) (body : List WorkflowNode) (item : String) (expr : Expr)
  | conditional (range : Range) (body : List WorkflowNode) (expr : Expr)

/-- A workflow. -/
structure Workflow where
  range : Range
  name : String
  inputs : List Decl
  body : List WorkflowNode
  outputs : List Decl
  parameterMeta : List (String × Meta)
  metadata : List (String × Meta)

/-- An element of a document after its version. -/
inductive Element where
  | importDoc (i : Import)
  | structDef (s : StructDef)
  | task (t : Task)
  | workflow (w : Workflow)

/-- Where an element is. -/
def Element.range : Element → Range
  | .importDoc i => i.range
  | .structDef s => s.range
  | .task t => t.range
  | .workflow w => w.range

/-- A document. -/
structure Document where
  range : Range
  version : Version
  body : List Element
  source : SourceText

namespace Document

/-- The imports of a document. -/
def imports (d : Document) : List Import :=
  d.body.filterMap fun e => match e with
    | .importDoc i => some i
    | _ => none

/-- The struct definitions of a document. -/
def structDefs (d : Document) : List StructDef :=
  d.body.filterMap fun e => match e with
    | .structDef s => some s
    | _ => none

/-- The tasks of a document. -/
def tasks (d : Document) : List Task :=
  d.body.filterMap fun e => match e with
    | .task t => some t
    | _ => none

/-- The workflow of a document. -/
def workflow? (d : Document) : Option Workflow :=
  d.body.findSome? fun e => match e with
    | .workflow w => some w
    | _ => none

end Document

end Wdl
