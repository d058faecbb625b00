import Wdl.Surface.Expr

/-!
# Wdl.Surface.Document -- documents as they are written

The surface forms of types, declarations, meta values, tasks, workflows and whole documents. They
record every element in the order written; which sections may repeat, which names are reserved and
which types take parameters is decided later.
-/

namespace Wdl.Surface

/-! ## Types and declarations -/

/-- Quantifiers of a type. -/
inductive Quantifier where
  | optional
  | nonempty
  | optionalNonempty
deriving DecidableEq, Repr, Inhabited

/-- A type: its name, its parameters, and its quantifier with the position where that starts. -/
inductive TypeExpr where
  | mk (range : Range) (name : Word) (parameters : List TypeExpr)
    (quantifier : Option (Quantifier × Nat))

/-- Where a type is. -/
def TypeExpr.range : TypeExpr → Range
  | .mk range _ _ _ => range

/-- A declaration, perhaps with an initializer. -/
structure Decl where
  range : Range
  type : TypeExpr
  name : Word
  expr : Option Expr

/-! ## Meta values -/

/-- A sign before a meta number. -/
inductive Sign where
  | minus
  | plus
deriving DecidableEq, Repr, Inhabited

/-- A value in a meta section. -/
inductive Meta where
  | null (range : Range)
  | boolean (range : Range) (value : Bool)
  | number (range : Range) (sign : Option Sign) (n : Number)
  | string (q : Quoted)
  | array (range : Range) (items : List Meta)
  | object (range : Range) (members : List (Word × Range × Meta))

/-- Where a meta value is. -/
def Meta.range : Meta → Range
  | .null range => range
  | .boolean range _ => range
  | .number range _ _ => range
  | .string q => q.range
  | .array range _ => range
  | .object range _ => range

/-- A value with its key, and the range of both. -/
abbrev MetaMember := Word × Range × Meta

/-! ## Sections -/

/-- The two meta sections. -/
inductive MetaKind where
  | metaSection
  | parameterMeta
deriving DecidableEq, Repr, Inhabited

/-- A meta section. -/
structure MetaSection where
  range : Range
  kind : MetaKind
  members : List MetaMember

/-- An entry of a runtime section. -/
structure RuntimeEntry where
  range : Range
  key : Word
  expr : Expr

/-- A task's command. -/
structure Command where
  range : Range
  style : CommandStyle
  parts : List Part

/-- An item of a task's body other than the command. -/
inductive TaskItem where
  | inputs (range : Range) (decls : List Decl)
  | outputs (range : Range) (decls : List Decl)
  | metadata (s : MetaSection)
  | runtime (range : Range) (entries : List RuntimeEntry)
  | decl (d : Decl)

/-- A task. Its command stands between other items. -/
structure Task where
  range : Range
  name : Word
  before : List TaskItem
  command : Command
  behind : List TaskItem

/-! ## Workflows -/

/-- An input of a call; without an expression it passes the value of the same name on. -/
structure CallInput where
  range : Range
  name : Word
  expr : Option Expr

/-- A call. -/
structure Call where
  range : Range
  callee : List Word
  givenName : Option Word
  inputs : List CallInput

/-- A declaration, call or nested section in a workflow. -/
inductive WorkflowNode where
  | decl (d : Decl)
  | call (c : Call)
  | scatter (range : Range) (item : Word) (expr : Expr) (body : List WorkflowNode)
  | conditional (range : Range) (expr : Expr) (body : List WorkflowNode)

/-- An item of a workflow's body. -/
inductive WorkflowItem where
  | inputs (range : Range) (decls : List Decl)
  | outputs (range : Range) (decls : List Decl)
  | metadata (s : MetaSection)
  | node (n : WorkflowNode)

/-- A workflow. -/
structure Workflow where
  range : Range
  name : Word
  items : List WorkflowItem

/-! ## Documents -/

/-- A new name for an imported struct. -/
structure Alias where
  range : Range
  source : Word
  target : Word

/-- An import. -/
structure Import where
  range : Range
  uri : Quoted
  givenName : Option Word
  aliases : List Alias

/-- A struct definition. -/
structure StructDef where
  range : Range
  name : Word
  members : List Decl

/-- An element of a document. -/
inductive Element where
  | version (range : Range) (identifier : Word)
  | importDoc (i : Import)
  | struct (s : StructDef)
  | task (t : Task)
  | workflow (w : Workflow)

/-- A document. -/
structure Document where
  elements : List Element

end Wdl.Surface
