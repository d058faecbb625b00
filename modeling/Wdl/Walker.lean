import Wdl.Ast.Size

/-!
# Wdl.Walker -- walks over the nodes of a document

A walker dispatches each node it meets to the method for its kind, which is one event. What comes
after depends on the walker: one that descends by itself goes on to the children of every node; the
methods of any other do that themselves, unless they are silent. Several walkers that descend by
themselves can share one walk.
-/

namespace Wdl

/-! ## Methods -/

/-- The methods that nodes are dispatched to. -/
inductive Method where
  | document | version | importDoc | structDef | task | command | workflow | call | scatter
  | conditional | decl | type | expr | metaValue
deriving DecidableEq, Repr, Inhabited

namespace Method

/-- All methods. -/
def all : List Method :=
  [.document, .version, .importDoc, .structDef, .task, .command, .workflow, .call, .scatter,
   .conditional, .decl, .type, .expr, .metaValue]

/-- The name of a method. -/
def name : Method → String
  | .document => "document"
  | .version => "version"
  | .importDoc => "import_doc"
  | .structDef => "struct_typedef"
  | .task => "task"
  | .command => "command"
  | .workflow => "workflow"
  | .call => "call"
  | .scatter => "scatter"
  | .conditional => "conditional"
  | .decl => "decl"
  | .type => "type"
  | .expr => "expr"
  | .metaValue => "meta"

/-- The method of a name. -/
def ofName? (s : String) : Option Method := all.find? fun m => m.name == s

theorem ofName?_name (m : Method) : ofName? m.name = some m := by cases m <;> decide

end Method

/-- The method that a node is dispatched to. -/
def Node.method : Node → Method
  | .document _ => .document
  | .version _ => .version
  | .importDoc _ => .importDoc
  | .structDef _ => .structDef
  | .task _ => .task
  | .command _ => .command
  | .workflow _ => .workflow
  | .call _ => .call
  | .scatter _ _ _ _ => .scatter
  | .conditional _ _ _ => .conditional
  | .decl _ => .decl
  | .type _ => .type
  | .expr _ | .placeholder _ => .expr
  | .metaValue _ => .metaValue

/-! ## Walkers -/

/-- A walker. A `single` one has a number that tells it from others; it may descend by itself, and
its silent methods do not pass a node on. A `multi` one runs several in one walk. -/
inductive Walker where
  | single (number : Nat) (descends : Bool) (silent : List Method)
  | multi (walkers : List Walker)

/-- The node that a walker dispatches. -/
structure Event where
  walker : Nat
  node : Node

namespace Walker

/-- The walker descends by itself. -/
def descends : Walker → Bool
  | .single _ descends _ => descends
  | .multi _ => true

/-- Puts walkers together, if all of them descend by themselves. -/
def together? (walkers : List Walker) : Option Walker :=
  if walkers.all descends then some (.multi walkers) else none

/-- The events of calling a walker on a node, in order. `descend` decides whether the call goes on
to the children; if absent, the walker does. -/
def walk : Walker → Option Bool → Node → List Event
  | .single number descends silent, descend, n =>
    let below := n.children.attach.flatMap fun child =>
      walk (.single number descends silent) none child.1
    ⟨number, n⟩ :: ((if descends || silent.contains n.method then [] else below)
      ++ (if descend.getD descends then below else []))
  | .multi walkers, descend, n =>
    (walkers.attach.flatMap fun w => walk w.1 (some false) n)
      ++ (if descend.getD true then
            n.children.attach.flatMap fun child => walk (.multi walkers) none child.1
          else [])
termination_by w _ n => (sizeOf n, sizeOf w)
decreasing_by
  · exact .left _ _ (Node.sizeOf_child child.2)
  · exact .right _ (Nat.lt_trans (List.sizeOf_lt_of_mem w.2) (by simp))
  · exact .left _ _ (Node.sizeOf_child child.2)

end Walker

end Wdl
