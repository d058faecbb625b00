import Wdl.Parser.Expr
import Wdl.Surface.Document

/-!
# Wdl.Parser.Document -- the grammar of documents

Types, declarations, meta values, tasks, workflows and the elements of a document. Each element is
told from the others by its first token; only types, meta values and nested workflow sections nest.
-/

namespace Wdl.Parser

open Surface

variable (lex : Scanner)

/-! ## Types and declarations -/

/-- The quantifier of a type, with the token it is written by. -/
def quantifier : Parser (Option (Quantifier × Token)) := do
  match ← peek with
  | some (.symbol .question) => return some (.optional, ← shift lex Expect.afterType)
  | some (.symbol .plus) => return some (.nonempty, ← shift lex Expect.afterType)
  | some (.symbol .plusQuestion) => return some (.optionalNonempty, ← shift lex Expect.afterType)
  | _ => return none

/-- The second parameter of a type, if there is one. -/
def secondParameter (type : Parser TypeExpr) : Parser (List TypeExpr) := do
  if ← optionalSymbol lex .comma Expect.aName then return [← type] else return []

/-- The parameters of a type, and where they end. -/
def typeParameters (type : Parser TypeExpr) (name : Word) : Parser (List TypeExpr × Nat) := do
  if ← optionalSymbol lex .bracketOpen Expect.aName then
    let first ← type
    let second ← secondParameter lex type
    let close ← takeSymbol lex .bracketClose Expect.quantifiers
    return (first :: second, close.stop)
  else return ([], name.range.stop)

/-- A type that nests at most `n` deep. -/
def typeUpTo : Nat → Parser TypeExpr
  | 0 => reject
  | n + 1 => do
    let name ← takeName lex Expect.afterTypeName
    let (parameters, stop) ← typeParameters lex (typeUpTo n) name
    match ← quantifier lex with
    | none => return .mk ⟨name.range.start, stop⟩ name parameters none
    | some (q, token) =>
      return .mk ⟨name.range.start, token.stop⟩ name parameters (some (q, token.start))

/-- A type. -/
def typeExpr : Parser TypeExpr := do typeUpTo lex (← remaining)

/-- The initializer of a declaration whose type and name are taken. -/
def initialized (type : TypeExpr) (name : Word) : Parser Surface.Decl := do
  let _ ← takeSymbol lex .equal Expect.expr
  let e ← expr lex
  return ⟨⟨type.range.start, e.range.stop⟩, type, name, some e⟩

/-- A declaration without an initializer. -/
def unboundDecl : Parser Surface.Decl := do
  let type ← typeExpr lex
  let name ← takeName lex Expect.entries
  return ⟨⟨type.range.start, name.range.stop⟩, type, name, none⟩

/-- A declaration with an initializer. -/
def boundDecl : Parser Surface.Decl := do
  let type ← typeExpr lex
  let name ← takeName lex Expect.anEqual
  initialized lex type name

/-- A declaration with or without an initializer. -/
def anyDecl : Parser Surface.Decl := do
  let type ← typeExpr lex
  let name ← takeName lex Expect.afterDeclName
  if ← sees (.symbol .equal) then initialized lex type name
  else return ⟨⟨type.range.start, name.range.stop⟩, type, name, none⟩

/-- A name. -/
def isName : Terminal → Bool
  | .name => true
  | _ => false

/-- The declarations of an input or output section, and where the section is. -/
def declSection (k : Keyword) : Parser (Range × List Surface.Decl) := do
  let start ← takeKeyword lex k Expect.aBrace
  let _ ← takeSymbol lex .braceOpen Expect.entries
  let decls ← many isName (anyDecl lex)
  let close ← takeSymbol lex .braceClose Expect.afterDecls
  return (⟨start.start, close.stop⟩, decls)

/-! ## Meta sections -/

/-- An entry of a meta object. -/
def metaMember (value : Parser Surface.Meta) : Parser MetaMember := do
  let name ← takeName lex Expect.aColon
  let _ ← takeSymbol lex .colon Expect.metaValue
  let m ← value
  return (name, ⟨name.range.start, m.range.stop⟩, m)

/-- The entries of a meta object, and where the object is. -/
def metaMembers (value : Parser Surface.Meta) : Parser (Range × List MetaMember) := do
  let brace ← takeSymbol lex .braceOpen Expect.entries
  let members ← looseList lex .braceClose Expect.entries (metaMember lex value)
  let close ← takeSymbol lex .braceClose Expect.afterMetaObject
  return (⟨brace.start, close.stop⟩, members)

/-- A meta array. -/
def metaArray (value : Parser Surface.Meta) : Parser Surface.Meta := do
  let bracket ← takeSymbol lex .bracketOpen Expect.metaItem
  let items ← commaList lex .bracketClose Expect.metaItem value
  let close ← takeSymbol lex .bracketClose Expect.afterMeta
  return .array ⟨bracket.start, close.stop⟩ items

/-- A number with a sign. -/
def signedNumber (sign : Surface.Sign) : Parser Surface.Meta := do
  let token ← shift lex Expect.numbers
  let n ← takeNumber lex Expect.afterNumber
  return .number ⟨token.start, n.range.stop⟩ (some sign) n

/-- A meta value that nests at most `n` deep. -/
def metaUpTo : Nat → Parser Surface.Meta
  | 0 => reject
  | n + 1 => do
    match ← peek with
    | some (.keyword .kwNull) => return .null (← shift lex Expect.afterMeta).range
    | some (.keyword .kwTrue) => return .boolean (← shift lex Expect.afterMeta).range true
    | some (.keyword .kwFalse) => return .boolean (← shift lex Expect.afterMeta).range false
    | some (.symbol .minus) => signedNumber lex .minus
    | some (.symbol .plus) => signedNumber lex .plus
    | some (.number _) =>
      let number ← takeNumber lex Expect.afterNumber
      return .number number.range none number
    | some (.quoted _) => return .string (← takeQuoted lex)
    | some (.symbol .bracketOpen) => metaArray lex (metaUpTo n)
    | some (.symbol .braceOpen) =>
      let (range, members) ← metaMembers lex (metaUpTo n)
      return .object range members
    | _ => reject

/-- A meta section. -/
def metaSection (k : Keyword) (kind : MetaKind) : Parser MetaSection := do
  let start ← takeKeyword lex k Expect.aBrace
  let (body, members) ← metaMembers lex (metaUpTo lex (← remaining))
  return ⟨⟨start.start, body.stop⟩, kind, members⟩

/-! ## Tasks -/

/-- An entry of a runtime section. -/
def runtimeEntry : Parser RuntimeEntry := do
  let key ← takeName lex Expect.aColon
  let _ ← takeSymbol lex .colon Expect.expr
  let e ← expr lex
  return ⟨⟨key.range.start, e.range.stop⟩, key, e⟩

/-- A runtime section. No comma may stand before its end. -/
def runtimeSection : Parser TaskItem := do
  let start ← takeKeyword lex .kwRuntime Expect.aBrace
  let _ ← takeSymbol lex .braceOpen Expect.entries
  let entries ← looseList lex .braceClose Expect.aName (runtimeEntry lex)
  let close ← takeSymbol lex .braceClose Expect.afterRuntime
  return .runtime ⟨start.start, close.stop⟩ entries

/-- The parts of a command. -/
def commandParts (style : CommandStyle) (opener : Terminal) : Parser (List Surface.Part) := do
  let n := 2 * (← remaining)
  partsUpTo lex (exprUpTo lex n) (operand lex n) (.commandText style) opener
    (Expect.afterCommandText style) (Expect.inCommand style) n

/-- A command. -/
def command : Parser Surface.Command := do
  let start ← takeKeyword lex .kwCommand Expect.commandOpen
  if ← sees (.symbol .heredocOpen) then
    let _ ← shift lex (Expect.inCommand .heredoc)
    let parts ← commandParts lex .heredoc (.symbol .tildeBrace)
    let close ← takeSymbol lex .heredocClose Expect.afterCommand
    return ⟨⟨start.start, close.stop⟩, .heredoc, parts⟩
  else
    let _ ← takeSymbol lex .braceOpen (Expect.inCommand .braces)
    let parts ← commandParts lex .braces .opening
    let close ← takeSymbol lex .braceClose Expect.afterCommand
    return ⟨⟨start.start, close.stop⟩, .braces, parts⟩

/-- What starts an item of a task's body other than the command. -/
def startsTaskItem : Terminal → Bool
  | .keyword .kwInput | .keyword .kwOutput | .keyword .kwMeta | .keyword .kwParameterMeta
  | .keyword .kwRuntime | .name => true
  | _ => false

/-- An item of a task's body other than the command. -/
def taskItem : Parser TaskItem := do
  match ← peek with
  | some (.keyword .kwInput) =>
    let (range, decls) ← declSection lex .kwInput
    return .inputs range decls
  | some (.keyword .kwOutput) =>
    let (range, decls) ← declSection lex .kwOutput
    return .outputs range decls
  | some (.keyword .kwMeta) => return .metadata (← metaSection lex .kwMeta .metaSection)
  | some (.keyword .kwParameterMeta) =>
    return .metadata (← metaSection lex .kwParameterMeta .parameterMeta)
  | some (.keyword .kwRuntime) => runtimeSection lex
  | _ => return .decl (← boundDecl lex)

/-- A task. Its command stands between its other items. -/
def task : Parser Surface.Task := do
  let start ← takeKeyword lex .kwTask Expect.aName
  let name ← takeName lex Expect.aBrace
  let _ ← takeSymbol lex .braceOpen Expect.taskBody
  let before ← many startsTaskItem (taskItem lex)
  let c ← command lex
  let behind ← many startsTaskItem (taskItem lex)
  let close ← takeSymbol lex .braceClose Expect.elements
  return ⟨⟨start.start, close.stop⟩, name, before, c, behind⟩

/-! ## Workflows -/

/-- At most `n` more names of a callee, each after a dot. -/
def calleeUpTo : Nat → Parser (List Word)
  | 0 => return []
  | n + 1 => do
    if ← optionalSymbol lex .dot Expect.aName then
      let name ← takeName lex Expect.afterCallee
      let rest ← calleeUpTo n
      return name :: rest
    else return []

/-- An input of a call. -/
def callInput : Parser CallInput := do
  let name ← takeName lex Expect.afterInputName
  if ← optionalSymbol lex .equal Expect.expr then
    let e ← expr lex
    return ⟨⟨name.range.start, e.range.stop⟩, name, some e⟩
  else return ⟨name.range, name, none⟩

/-- The inputs of a call, and where they end; without braces, where the call ends. -/
def callInputs (stop : Nat) : Parser (List CallInput × Nat) := do
  if ← optionalSymbol lex .braceOpen Expect.callInputs then
    if ← sees (.keyword .kwInput) then
      let _ ← shift lex Expect.aColon
      let _ ← takeSymbol lex .colon Expect.entries
    let inputs ← commaList lex .braceClose Expect.entries (callInput lex)
    let close ← takeSymbol lex .braceClose Expect.workflowBody
    return (inputs, close.stop)
  else return ([], stop)

/-- The name given to a call. -/
def callName : Parser (Option Word) := do
  if ← sees (.keyword .kwAs) then
    let _ ← shift lex Expect.aName
    return some (← takeName lex Expect.afterCallAlias)
  else return none

/-- A call. -/
def call : Parser Surface.Call := do
  let start ← takeKeyword lex .kwCall Expect.aName
  let first ← takeName lex Expect.afterCallee
  let rest ← calleeUpTo lex (← remaining)
  let givenName ← callName lex
  let named := (givenName.getD (rest.getLast?.getD first)).range
  let (inputs, stop) ← callInputs lex named.stop
  return ⟨⟨start.start, stop⟩, first :: rest, givenName, inputs⟩

/-- What starts an element of a workflow's body. -/
def startsWorkflowNode : Terminal → Bool
  | .keyword .kwCall | .keyword .kwScatter | .keyword .kwIf | .name => true
  | _ => false

/-- The body of a nested section, and where it ends. -/
def nestedBody (node : Parser Surface.WorkflowNode) :
    Parser (List Surface.WorkflowNode × Nat) := do
  let _ ← takeSymbol lex .braceOpen Expect.nestedBody
  let body ← many startsWorkflowNode node
  let close ← takeSymbol lex .braceClose Expect.workflowBody
  return (body, close.stop)

/-- A scatter section. -/
def scatter (node : Parser Surface.WorkflowNode) : Parser Surface.WorkflowNode := do
  let start ← takeKeyword lex .kwScatter Expect.aParen
  let _ ← takeSymbol lex .parenOpen Expect.aName
  let item ← takeName lex Expect.anIn
  let _ ← takeKeyword lex .kwIn Expect.expr
  let e ← expr lex
  let _ ← takeSymbol lex .parenClose Expect.aBrace
  let (body, stop) ← nestedBody lex node
  return .scatter ⟨start.start, stop⟩ item e body

/-- A conditional section. -/
def conditional (node : Parser Surface.WorkflowNode) : Parser Surface.WorkflowNode := do
  let start ← takeKeyword lex .kwIf Expect.aParen
  let _ ← takeSymbol lex .parenOpen Expect.expr
  let e ← expr lex
  let _ ← takeSymbol lex .parenClose Expect.aBrace
  let (body, stop) ← nestedBody lex node
  return .conditional ⟨start.start, stop⟩ e body

/-- An element of a workflow's body that nests at most `n` deep. -/
def nodeUpTo : Nat → Parser Surface.WorkflowNode
  | 0 => reject
  | n + 1 => do
    match ← peek with
    | some (.keyword .kwCall) => return .call (← call lex)
    | some (.keyword .kwScatter) => scatter lex (nodeUpTo n)
    | some (.keyword .kwIf) => conditional lex (nodeUpTo n)
    | _ => return .decl (← boundDecl lex)

/-- What starts an item of a workflow. -/
def startsWorkflowItem : Terminal → Bool
  | .keyword .kwInput | .keyword .kwOutput | .keyword .kwMeta | .keyword .kwParameterMeta => true
  | t => startsWorkflowNode t

/-- An item of a workflow. -/
def workflowItem : Parser WorkflowItem := do
  match ← peek with
  | some (.keyword .kwInput) =>
    let (range, decls) ← declSection lex .kwInput
    return .inputs range decls
  | some (.keyword .kwOutput) =>
    let (range, decls) ← declSection lex .kwOutput
    return .outputs range decls
  | some (.keyword .kwMeta) => return .metadata (← metaSection lex .kwMeta .metaSection)
  | some (.keyword .kwParameterMeta) =>
    return .metadata (← metaSection lex .kwParameterMeta .parameterMeta)
  | _ => return .node (← nodeUpTo lex (← remaining))

/-- A workflow. -/
def workflow : Parser Surface.Workflow := do
  let start ← takeKeyword lex .kwWorkflow Expect.aName
  let name ← takeName lex Expect.aBrace
  let _ ← takeSymbol lex .braceOpen Expect.workflowBody
  let items ← many startsWorkflowItem (workflowItem lex)
  let close ← takeSymbol lex .braceClose Expect.elements
  return ⟨⟨start.start, close.stop⟩, name, items⟩

/-! ## Documents -/

/-- A version statement. -/
def version : Parser Surface.Element := do
  let start ← takeKeyword lex .kwVersion Expect.aVersion
  let identifier ← take lex .versionWord Expect.elements
  return .version ⟨start.start, identifier.stop⟩ (word identifier)

/-- What starts an alias of an import. -/
def startsAlias : Terminal → Bool
  | .keyword .kwAlias => true
  | _ => false

/-- A new name for an imported struct. -/
def importAlias : Parser Alias := do
  let start ← takeKeyword lex .kwAlias Expect.aName
  let source ← takeName lex Expect.anAs
  let _ ← takeKeyword lex .kwAs Expect.aName
  let target ← takeName lex Expect.aliases
  return ⟨⟨start.start, target.range.stop⟩, source, target⟩

/-- The namespace given to an import. -/
def importName : Parser (Option Word) := do
  if ← sees (.keyword .kwAs) then
    let _ ← shift lex Expect.aName
    return some (← takeName lex Expect.aliases)
  else return none

/-- An import. -/
def importDoc : Parser Surface.Import := do
  let start ← takeKeyword lex .kwImport Expect.quoteds
  let uri ← takeQuoted lex
  let name ← importName lex
  let aliases ← many startsAlias (importAlias lex)
  let named := (name.map Word.range).getD uri.range
  let stop := ((aliases.getLast?.map Alias.range).getD named).stop
  return ⟨⟨start.start, stop⟩, uri, name, aliases⟩

/-- A struct definition. -/
def structDef : Parser Surface.StructDef := do
  let start ← takeKeyword lex .kwStruct Expect.aName
  let name ← takeName lex Expect.aBrace
  let _ ← takeSymbol lex .braceOpen Expect.entries
  let members ← many isName (unboundDecl lex)
  let close ← takeSymbol lex .braceClose Expect.elements
  return ⟨⟨start.start, close.stop⟩, name, members⟩

/-- What starts an element of a document. -/
def startsElement : Terminal → Bool
  | .keyword .kwVersion | .keyword .kwImport | .keyword .kwStruct | .keyword .kwTask
  | .keyword .kwWorkflow => true
  | _ => false

/-- An element of a document. -/
def element : Parser Surface.Element := do
  match ← peek with
  | some (.keyword .kwVersion) => version lex
  | some (.keyword .kwImport) => return .importDoc (← importDoc lex)
  | some (.keyword .kwStruct) => return .struct (← structDef lex)
  | some (.keyword .kwTask) => return .task (← task lex)
  | _ => return .workflow (← workflow lex)

/-- A document. -/
def document : Parser Surface.Document := do return ⟨← many startsElement (element lex)⟩

end Wdl.Parser

namespace Wdl.Surface

/-- The document that a whole text writes. -/
def Document.parse (lex : Scanner) (cs : List Char) : Except Rejection Document :=
  Parser.whole lex Expect.elements (Parser.document lex) cs

/-- The expression that a whole text writes. -/
def Expr.parse (lex : Scanner) (cs : List Char) : Except Rejection Expr :=
  Parser.whole lex Expect.expr (Parser.expr lex) cs

end Wdl.Surface
