import Wdl.Ast.Node

/-!
# Wdl.Ast.Attribute -- names that a node carries

A node has attributes: its fields, where it is, and a few that its view leaves out. Others are
computed from these. None of them can be changed, so their names cannot be given to anything else.
-/

namespace Wdl

namespace View

/-- The names of the fields of a view. -/
def fieldNames : View → List String
  | .node _ fields => fields.map (·.1)
  | _ => []

end View

/-- Why an attribute cannot be attached. -/
inductive AttributeFault where
  /-- The node has it already. -/
  | readOnly (owner name : String)
  /-- It is computed from others. -/
  | computed (owner name : String)
deriving DecidableEq, Repr

/-- The wording of a fault. -/
def AttributeFault.message : AttributeFault → String
  | .readOnly owner name => owner ++ "." ++ name ++ " is read-only"
  | .computed owner name => "property '" ++ name ++ "' of '" ++ owner ++ "' object has no setter"

namespace Node

/-- The attributes of a node that its view leaves out. -/
def hiddenAttributes : Node → List String
  | .document _ => ["pos", "source_text"]
  | .expr (.int _ _ _) | .metaValue (.int _ _ _) => ["pos", "radix"]
  | _ => ["pos"]

/-- The attributes of a node. -/
def attributes (n : Node) : List String := n.hiddenAttributes ++ n.view.fieldNames

/-- The names under which something is computed from the attributes of a node. -/
def computedNames : Node → List String
  | .document _ =>
    ["children", "source_lines", "imports", "struct_typedefs", "tasks", "workflow"]
  | .structDef _ => ["children", "member_types"]
  | .call _ => ["children", "name"]
  | .type _ => ["children", "optional", "parameters"]
  | .expr _ | .placeholder _ => ["children", "literal"]
  | .metaValue _ => ["children", "json"]
  | _ => ["children"]

end Node

end Wdl
