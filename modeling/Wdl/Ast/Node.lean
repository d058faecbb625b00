import Wdl.Ast.View

/-!
# Wdl.Ast.Node -- all kinds of nodes as one

Every part of a document that has a range is a node. `children` lists the nodes right below one in
the order in which a traversal meets them, and `descendant?` follows a path of positions in these
lists.
-/

namespace Wdl

/-- A node of a document or expression. -/
inductive Node where
  | document (d : Document)
  | version (v : Version)
  | importDoc (i : Import)
  | structDef (s : StructDef)
  | task (t : Task)
  | command (c : Command)
  | workflow (w : Workflow)
  | call (c : Call)
  | scatter (range : Range) (body : List WorkflowNode) (item : String) (expr : Expr)
  | conditional (range : Range) (body : List WorkflowNode) (expr : Expr)
  | decl (d : Decl)
  | type (t : Ty)
  | expr (e : Expr)
  | placeholder (p : Placeholder)
  | metaValue (m : Meta)

/-- An element of a workflow's body as a node. -/
def WorkflowNode.node : WorkflowNode → Node
  | .decl d => .decl d
  | .call c => .call c
  | .scatter r body item e => .scatter r body item e
  | .conditional r body e => .conditional r body e

/-- An element of a document as a node. -/
def Element.node : Element → Node
  | .importDoc i => .importDoc i
  | .structDef s => .structDef s
  | .task t => .task t
  | .workflow w => .workflow w

namespace Node

/-- Where a node is. -/
def range : Node → Range
  | .document d => d.range
  | .version v => v.range
  | .importDoc i => i.range
  | .structDef s => s.range
  | .task t => t.range
  | .command c => c.range
  | .workflow w => w.range
  | .call c => c.range
  | .scatter r _ _ _ => r
  | .conditional r _ _ => r
  | .decl d => d.range
  | .type t => t.range
  | .expr e => e.range
  | .placeholder p => p.range
  | .metaValue m => m.range

/-- The label of a node. -/
def label : Node → Label
  | .document _ => ⟨"Tree", "Document"⟩
  | .version _ => ⟨"Tree", "Version"⟩
  | .importDoc _ => ⟨"Tree", "Import"⟩
  | .structDef _ => ⟨"Tree", "StructTypeDef"⟩
  | .task _ => ⟨"Tree", "Task"⟩
  | .command _ => ⟨"Tree", "Command"⟩
  | .workflow _ => ⟨"Tree", "Workflow"⟩
  | .call _ => ⟨"Tree", "Call"⟩
  | .scatter _ _ _ _ => ⟨"Tree", "Scatter"⟩
  | .conditional _ _ _ => ⟨"Tree", "Conditional"⟩
  | .decl _ => ⟨"Tree", "Decl"⟩
  | .type t => t.label
  | .expr e => e.label
  | .placeholder _ => Placeholder.label
  | .metaValue m => m.label

/-- What a node holds, apart from where it is. -/
def view : Node → View
  | .document d => d.view
  | .version v => v.view
  | .importDoc i => i.view
  | .structDef s => s.view
  | .task t => t.view
  | .command c => c.view
  | .workflow w => w.view
  | .call c => c.view
  | .scatter r body item e => (WorkflowNode.scatter r body item e).view
  | .conditional r body e => (WorkflowNode.conditional r body e).view
  | .decl d => d.view
  | .type t => t.view
  | .expr e => e.view
  | .placeholder p => p.view
  | .metaValue m => m.view

/-- Whether two nodes are of one kind and hold the same, wherever they are. -/
def same (a b : Node) : Bool := a.view.same b.view

/-- The text that describes a node. -/
def describe (n : Node) : String := n.view.describe

end Node

/-! ## Children -/

/-- The nodes of some declarations. -/
def declNodes (ds : List Decl) : List Node := ds.map .decl

/-- The nodes of the placeholders among some parts. -/
def partNodes (parts : List Part) : List Node := (placeholdersOf parts).map .placeholder

/-- The nodes of the values of a meta mapping. -/
def metaNodes (members : List (String × Meta)) : List Node :=
  members.map fun member => .metaValue member.2

/-- The nodes of named expressions. -/
def memberNodes {κ : Type} (members : List (κ × Expr)) : List Node :=
  members.map fun member => .expr member.2

/-- The nodes right below an expression. -/
def Expr.children : Expr → List Node
  | .boolean _ _ | .int _ _ _ | .float _ _ | .null _ | .ident _ _ => []
  | .string _ parts => partNodes parts
  | .array _ items => items.map .expr
  | .pair _ left right => [.expr left, .expr right]
  | .map _ items => items.flatMap fun item => [.expr item.1, .expr item.2]
  | .struct _ members _ => memberNodes members
  | .ifThenElse _ condition consequent alternative =>
    [.expr condition, .expr consequent, .expr alternative]
  | .get _ e _ => [.expr e]
  | .index _ e i => [.expr e, .expr i]
  | .unary _ _ e => [.expr e]
  | .binary _ _ left right => [.expr left, .expr right]
  | .apply _ _ arguments => arguments.map .expr

/-- The nodes right below a meta value. -/
def Meta.children : Meta → List Node
  | .array _ items => items.map .metaValue
  | .object _ members => metaNodes members
  | _ => []

/-- The nodes right below a declaration. -/
def Decl.children (d : Decl) : List Node := .type d.type :: (d.expr.map Node.expr).toList

/-- The nodes right below a task. -/
def Task.children (t : Task) : List Node :=
  declNodes t.inputs ++ declNodes t.postinputs ++ .command t.command :: declNodes t.outputs
    ++ memberNodes t.runtime ++ metaNodes t.metadata ++ metaNodes t.parameterMeta

/-- The nodes right below a workflow. -/
def Workflow.children (w : Workflow) : List Node :=
  declNodes w.inputs ++ w.body.map WorkflowNode.node ++ declNodes w.outputs
    ++ metaNodes w.metadata ++ metaNodes w.parameterMeta

namespace Node

/-- The nodes right below a node, in the order of traversal. -/
def children : Node → List Node
  | .document d => .version d.version :: d.body.map Element.node
  | .version _ => []
  | .importDoc _ => []
  | .structDef s => declNodes s.members
  | .task t => t.children
  | .command c => partNodes c.parts
  | .workflow w => w.children
  | .call c => memberNodes c.inputs
  | .scatter _ body _ e => .expr e :: body.map WorkflowNode.node
  | .conditional _ body e => .expr e :: body.map WorkflowNode.node
  | .decl d => d.children
  | .type t => t.parameters.map .type
  | .expr e => e.children
  | .placeholder p => [.expr p.expr]
  | .metaValue m => m.children

/-- The node that a path of positions among children leads to. -/
def descendant? : List Nat → Node → Option Node
  | [], n => some n
  | i :: path, n => n.children[i]?.bind (descendant? path)

end Node

end Wdl
