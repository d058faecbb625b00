import Wdl.Build.Expr
import Wdl.Build.Section
import Wdl.Surface.Document
import Wdl.Text.Indentation

/-!
# Wdl.Build.Document -- documents from their surface forms

Everything inside an element is built before the element itself is checked. Two things are only
warned of: a runtime key that is written twice, and a command whose indentation mixes tabs and
spaces. Warnings are kept in order, also where a violation follows.
-/

namespace Wdl

/-- What is worth a warning. -/
inductive Warning where
  /-- A runtime section has two entries of one key; the last one counts. -/
  | repeatedRuntimeKey (key : String) (range : Range)
  /-- The indentation of a command mixes tabs and spaces. -/
  | mixedIndentation (range : Range)
deriving DecidableEq, Repr

/-- A computation that may warn, and stops at the first violation. -/
abbrev Builder := ExceptT Violated (StateM (List Warning))

namespace Build

/-- Adds a warning behind the others. -/
def warn (w : Warning) : Builder Unit := modify (· ++ [w])

/-- A check that warns of nothing. -/
def check {α : Type} (c : Checked α) : Builder α := ExceptT.mk (pure c)

/-- Builds items in order. -/
def each {α β : Type} (f : α → Builder β) : List α → Builder (List β)
  | [] => return []
  | x :: rest => do
    let y ← f x
    return y :: (← each f rest)

/-! ## Types and declarations -/

/-- The type is marked optional. -/
def isOptional : Surface.Quantifier → Bool
  | .optional | .optionalNonempty => true
  | .nonempty => false

/-- The type is marked nonempty. -/
def isNonempty : Surface.Quantifier → Bool
  | .nonempty | .optionalNonempty => true
  | .optional => false

/-- The name of the type of arrays. -/
def arrayWord : String := "Array"

/-- The name of the type of maps. -/
def mapWord : String := "Map"

/-- The name of the type of pairs. -/
def pairWord : String := "Pair"

/-- A type without its optional mark; `inner` is its range, `whole` that of all. -/
def plainType (whole inner : Range) (name : String) (parameters : List Ty) (nonempty : Bool) :
    Checked Ty :=
  if name = arrayWord then
    match parameters with
    | [item] => .ok (.array inner item nonempty)
    | _ => violate .arrayParameters whole
  else if nonempty then violate (.badQuantifier name) whole
  else if name = mapWord then
    match parameters with
    | [key, value] => .ok (.map inner key value)
    | _ => violate (.twoParameters name) whole
  else if name = pairWord then
    match parameters with
    | [left, right] => .ok (.pair inner left right)
    | _ => violate (.twoParameters name) whole
  else if !parameters.isEmpty then violate (.noParameters name) whole
  else match Atom.ofName? name with
    | some kind => .ok (.atom inner kind)
    | none => .ok (.struct inner name)

/-- A type with its quantifier, which starts where the rest of the type ends. -/
def quantifiedType (whole : Range) (name : String) (parameters : List Ty) :
    Option (Surface.Quantifier × Nat) → Checked Ty
  | none => plainType whole whole name parameters false
  | some (q, start) => do
    let plain ← plainType whole ⟨whole.start, start⟩ name parameters (isNonempty q)
    return if isOptional q then .optional whole plain else plain

mutual

/-- Builds a type. -/
def type : Surface.TypeExpr → Checked Ty
  | .mk whole name parameters quantifier => do
    let parameters ← types parameters
    quantifiedType whole name.text parameters quantifier

/-- Builds the parameters of a type. -/
def types : List Surface.TypeExpr → Checked (List Ty)
  | [] => .ok []
  | t :: rest => do
    let t ← type t
    return t :: (← types rest)

end

/-- Builds the initializer of a declaration. -/
def initializer (rules : Rules) : Option Surface.Expr → Checked (Option Expr)
  | none => .ok none
  | some e => do return some (← expr rules e)

/-- Builds a declaration. -/
def decl (rules : Rules) (d : Surface.Decl) : Checked Decl := do
  let type ← type d.type
  let e ← initializer rules d.expr
  checkName rules d.name
  return ⟨d.range, type, d.name.text, e⟩

/-- Checks that an output declaration has an initializer. -/
def checkBound (d : Decl) : Checked Unit :=
  if d.expr.isNone then violate (.missingInitializer d.name) d.range else .ok ()

/-- Builds the declarations of an output section. -/
def outputs (rules : Rules) (ds : List Surface.Decl) : Checked (List Decl) := do
  let ds ← ds.mapM (decl rules)
  ds.forM checkBound
  return ds

/-! ## Meta sections -/

/-- The meta value of a number. -/
def metaNumber (r : Range) (sign : Option Surface.Sign) (n : Surface.Number) : Checked Meta := do
  let value ← numberValue n
  let value := if sign = some .minus then value.neg else value
  return match value with
    | .int value radix => .int r value radix
    | .float value => .float r value

mutual

/-- Builds a meta value. -/
def metaValue (names : CharacterNames) : Surface.Meta → Checked Meta
  | .null r => .ok (.null r)
  | .boolean r value => .ok (.boolean r value)
  | .number r sign n => metaNumber r sign n
  | .string q => do return .string q.range (← quotedText names q)
  | .array r items => do return .array r (← metaItems names items)
  | .object r members => do
    let members ← metaEntries names members
    return .object r (← distinct .repeatedKey [] members)

/-- Builds the items of a meta array. -/
def metaItems (names : CharacterNames) : List Surface.Meta → Checked (List Meta)
  | [] => .ok []
  | m :: rest => do
    let m ← metaValue names m
    return m :: (← metaItems names rest)

/-- Builds the entries of a meta object. -/
def metaEntries (names : CharacterNames) :
    List (Surface.Word × Range × Surface.Meta) → Checked (List (String × Meta × Range))
  | [] => .ok []
  | (key, r, m) :: rest => do
    let m ← metaValue names m
    return (key.text, m, r) :: (← metaEntries names rest)

end

/-- Builds a meta section. -/
def metaSection (names : CharacterNames) (s : Surface.MetaSection) : Checked Section := do
  let members ← distinct .repeatedKey [] (← metaEntries names s.members)
  return match s.kind with
    | .metaSection => .metadata members
    | .parameterMeta => .parameterMeta members

/-! ## Tasks -/

/-- Sets the value of a key; a new key goes behind the others. -/
def setEntry {α : Type} (key : String) (value : α) : List (String × α) → List (String × α)
  | [] => [(key, value)]
  | (k, v) :: rest => if k = key then (k, value) :: rest else (k, v) :: setEntry key value rest

/-- Collects runtime entries; the last entry of a key counts. -/
def collectRuntime :
    List (String × Expr) → List (Range × String × Expr) → Builder (List (String × Expr))
  | done, [] => return done
  | done, (r, key, e) :: rest => do
    if done.any fun entry => entry.1 == key then warn (.repeatedRuntimeKey key r)
    collectRuntime (setEntry key e done) rest

/-- Builds an entry of a runtime section. -/
def runtimeEntry (rules : Rules) (entry : Surface.RuntimeEntry) :
    Checked (Range × String × Expr) := do
  return (entry.range, entry.key.text, ← expr rules entry.expr)

/-- A part of a command as a piece of a template. -/
def pieceOf : RawPart → Piece Placeholder
  | .text _ raw => .text raw
  | .placeholder p => .hole p

/-- A piece of a template as a part of a command. -/
def partOf : Piece Placeholder → Part
  | .text cs => .text (.ofChars cs)
  | .hole p => .placeholder p

/-- Builds a command. Its literal text is taken as it is, without the common indentation. -/
def command (rules : Rules) (c : Surface.Command) : Builder Command := do
  let parts ← check (rawParts rules c.parts)
  let stripped := Indentation.strip (parts.map pieceOf)
  if stripped.width.isNone then warn (.mixedIndentation c.range)
  return ⟨c.range, stripped.pieces.map partOf, c.style == .heredoc⟩

/-- Builds an item of a task. -/
def taskItem (rules : Rules) : Surface.TaskItem → Builder (Item Decl)
  | .inputs r ds => do return .block r (.inputs (← check (ds.mapM (decl rules))))
  | .outputs r ds => do return .block r (.outputs (← check (outputs rules ds)))
  | .metadata s => do return .block s.range (← check (metaSection rules.names s))
  | .runtime r entries => do
    let entries ← check (entries.mapM (runtimeEntry rules))
    return .block r (.runtime (← collectRuntime [] entries))
  | .decl d => do return .other (← check (decl rules d))

/-- Builds a task. -/
def task (rules : Rules) (t : Surface.Task) : Builder Task := do
  let before ← each (taskItem rules) t.before
  let c ← command rules t.command
  let behind ← each (taskItem rules) t.behind
  check (checkName rules t.name)
  check (assembleTask t.range t.name.text (before ++ behind) c)

/-! ## Workflows -/

/-- Builds an input of a call. -/
def callInput (rules : Rules) (i : Surface.CallInput) : Checked (String × Expr) := do
  let e ← initializer rules i.expr
  checkName rules i.name
  return (i.name.text, e.getD (.ident i.range i.name.text))

/-- Builds a call. -/
def call (rules : Rules) (c : Surface.Call) : Checked Call := do
  let inputs ← c.inputs.mapM (callInput rules)
  c.givenName.forM (checkName rules)
  return ⟨c.range, c.callee.map Surface.Word.text, c.givenName.map Surface.Word.text, inputs⟩

mutual

/-- Builds an element of a workflow's body. -/
def workflowNode (rules : Rules) : Surface.WorkflowNode → Checked WorkflowNode
  | .decl d => do return .decl (← decl rules d)
  | .call c => do return .call (← call rules c)
  | .scatter r item e body => do
    let e ← expr rules e
    let body ← workflowNodes rules body
    checkName rules item
    return .scatter r body item.text e
  | .conditional r e body => do
    let e ← expr rules e
    return .conditional r (← workflowNodes rules body) e

/-- Builds the body of a nested section. -/
def workflowNodes (rules : Rules) : List Surface.WorkflowNode → Checked (List WorkflowNode)
  | [] => .ok []
  | n :: rest => do
    let n ← workflowNode rules n
    return n :: (← workflowNodes rules rest)

end

/-- Builds an item of a workflow. -/
def workflowItem (rules : Rules) : Surface.WorkflowItem → Checked (Item WorkflowNode)
  | .inputs r ds => do return .block r (.inputs (← ds.mapM (decl rules)))
  | .outputs r ds => do return .block r (.outputs (← outputs rules ds))
  | .metadata s => do return .block s.range (← metaSection rules.names s)
  | .node n => do return .other (← workflowNode rules n)

/-- Builds a workflow. -/
def workflow (rules : Rules) (w : Surface.Workflow) : Checked Workflow := do
  let items ← w.items.mapM (workflowItem rules)
  checkName rules w.name
  assembleWorkflow w.range w.name.text items

/-! ## Imports and structs -/

/-- The text before the first occurrence of a character. -/
def before (c : Char) (cs : List Char) : List Char := cs.takeWhile (· != c)

/-- The text after the last occurrence of a character. -/
def afterLast (c : Char) (cs : List Char) : List Char := (cs.reverse.takeWhile (· != c)).reverse

/-- The namespace that follows from a URI: its last path segment, without query and extension. A
surrogate in it shows as a character that no name holds. -/
def inferredNamespace (uri : Text) : String :=
  String.ofList (before '.' (before '?' (afterLast '/' uri.chars)))

/-- A letter, then letters, digits and underscores. -/
def isNameText (s : String) : Bool :=
  match s.toList with
  | [] => false
  | c :: rest => Scan.isLetter c && rest.all Scan.isNameChar

/-- Builds an alias of an import. -/
def importAlias (rules : Rules) (a : Surface.Alias) : Checked (String × String × Range) := do
  checkName rules a.target
  return (a.source.text, a.target.text, a.range)

/-- Builds an import. -/
def importDoc (rules : Rules) (i : Surface.Import) : Checked Import := do
  let uri ← quotedText rules.names i.uri
  let aliases ← i.aliases.mapM (importAlias rules)
  let name := (i.givenName.map Surface.Word.text).getD (inferredNamespace uri)
  if !isNameText name || rules.reserved.contains name then violate .badNamespace i.range
  else return ⟨i.range, uri, name, ← distinct .repeatedAlias [] aliases⟩

/-- Checks that the members of a struct have different names, given those that came before. -/
def checkMembers (struct : String) : List String → List Decl → Checked Unit
  | _, [] => .ok ()
  | seen, d :: rest =>
    if seen.contains d.name then violate (.repeatedMember d.name struct) d.range
    else checkMembers struct (d.name :: seen) rest

/-- Builds a struct definition. -/
def structDef (rules : Rules) (s : Surface.StructDef) : Checked StructDef := do
  let members ← s.members.mapM (decl rules)
  checkName rules s.name
  checkMembers s.name.text [] members
  return ⟨s.range, s.name.text, members⟩

/-! ## Documents -/

/-- The versions of the language that are supported. -/
def supportedVersions : List String := ["1.0", "1.1", "1.2"]

/-- Builds a version statement. -/
def version (r : Range) (identifier : String) : Checked Version :=
  if supportedVersions.contains identifier then .ok ⟨r, identifier⟩
  else violate (.unsupportedVersion identifier supportedVersions) r

/-- Builds an element of a document. -/
def element (rules : Rules) : Surface.Element → Builder TopLevel
  | .version r w => do return .version (← check (version r w.text))
  | .importDoc i => do return .element (.importDoc (← check (importDoc rules i)))
  | .struct s => do return .element (.structDef (← check (structDef rules s)))
  | .task t => do return .element (.task (← task rules t))
  | .workflow w => do return .element (.workflow (← check (workflow rules w)))

/-- Builds a document. -/
def document (rules : Rules) (source : SourceText) (d : Surface.Document) : Builder Document := do
  let items ← each (element rules) d.elements
  check (assembleDocument source items)

end Build

end Wdl
