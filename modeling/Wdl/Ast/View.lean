import Wdl.Ast.Document
import Wdl.Number.Decimal
import Wdl.Text.Quoted

/-!
# Wdl.Ast.View -- what a node holds, apart from where it is

A view is the kind of a node with its fields by name, and the views of the nodes in them. Ranges,
the notation of integers and the source text of a document are not part of it. Nodes are compared
and described through their views: `View.same` is equality of normal forms, in which the entries of
a mapping are sorted and zero has no sign.
-/

namespace Wdl

/-- The kind of a node: the family it belongs to, and its name there. -/
structure Label where
  family : String
  name : String
deriving DecidableEq, Repr, Inhabited

/-- The value of a field, or a node. -/
inductive View where
  | null
  | boolean (value : Bool)
  | int (value : Int)
  | float (value : Binary64)
  | text (value : Text)
  | list (items : List View)
  | tuple (items : List View)
  | mapping (entries : List (String × View))
  | node (label : Label) (fields : List (String × View))

namespace View

instance : Inhabited View := ⟨.null⟩

/-- The view of a name, which is a text of characters. -/
abbrev name (s : String) : View := .text (.ofString s)

/-! ## Identity of views -/

mutual

/-- Whether two views are the same in every part. -/
def identical : View → View → Bool
  | .null, .null => true
  | .boolean a, .boolean b => a == b
  | .int a, .int b => a == b
  | .float a, .float b => a == b
  | .text a, .text b => a == b
  | .list a, .list b => identicalItems a b
  | .tuple a, .tuple b => identicalItems a b
  | .mapping a, .mapping b => identicalEntries a b
  | .node k a, .node l b => k == l && identicalEntries a b
  | _, _ => false

/-- Whether two lists of views are the same in every part. -/
def identicalItems : List View → List View → Bool
  | [], [] => true
  | x :: xs, y :: ys => x.identical y && identicalItems xs ys
  | _, _ => false

/-- Whether two lists of named views are the same in every part. -/
def identicalEntries : List (String × View) → List (String × View) → Bool
  | [], [] => true
  | (j, x) :: xs, (k, y) :: ys => j == k && x.identical y && identicalEntries xs ys
  | _, _ => false

end

mutual

theorem identical_iff : (a b : View) → (a.identical b = true ↔ a = b)
  | .null, b => by cases b <;> simp [identical]
  | .boolean _, b => by cases b <;> simp [identical]
  | .int _, b => by cases b <;> simp [identical]
  | .float _, b => by cases b <;> simp [identical]
  | .text _, b => by cases b <;> simp [identical]
  | .list xs, b => by cases b <;> simp [identical, identicalItems_iff xs]
  | .tuple xs, b => by cases b <;> simp [identical, identicalItems_iff xs]
  | .mapping xs, b => by cases b <;> simp [identical, identicalEntries_iff xs]
  | .node _ xs, b => by cases b <;> simp [identical, identicalEntries_iff xs]

theorem identicalItems_iff : (as bs : List View) → (identicalItems as bs = true ↔ as = bs)
  | [], bs => by cases bs <;> simp [identicalItems]
  | x :: xs, bs => by cases bs <;> simp [identicalItems, identical_iff x, identicalItems_iff xs]

theorem identicalEntries_iff :
    (as bs : List (String × View)) → (identicalEntries as bs = true ↔ as = bs)
  | [], bs => by cases bs <;> simp [identicalEntries]
  | (j, x) :: xs, bs => by
    cases bs with
    | nil => simp [identicalEntries]
    | cons head tail =>
      simp [identicalEntries, identical_iff x, identicalEntries_iff xs, Prod.ext_iff]

end

instance : DecidableEq View := fun a b => decidable_of_iff _ (identical_iff a b)

/-! ## Normal forms -/

/-- The entry with the smaller key comes first. -/
def entryLe (a b : String × View) : Bool := decide (¬ b.1 < a.1)

/-- The positive zero in place of the negative one. -/
def normalFloat (x : Binary64) : Binary64 :=
  if x.magnitude = 0 then { x with negative := false } else x

mutual

/-- The view with sorted mappings and unsigned zeros. -/
def normal : View → View
  | .float x => .float (normalFloat x)
  | .list items => .list (normalItems items)
  | .tuple items => .tuple (normalItems items)
  | .mapping entries => .mapping ((normalEntries entries).mergeSort entryLe)
  | .node label fields => .node label (normalEntries fields)
  | v => v

/-- The normal forms of views. -/
def normalItems : List View → List View
  | [] => []
  | v :: rest => v.normal :: normalItems rest

/-- The normal forms of named views. -/
def normalEntries : List (String × View) → List (String × View)
  | [] => []
  | (key, v) :: rest => (key, v.normal) :: normalEntries rest

end

/-- Whether two views have the same fields, mappings taken without order. -/
def same (a b : View) : Bool := a.normal == b.normal

theorem same_iff {a b : View} : a.same b = true ↔ a.normal = b.normal := by simp [same]

/-! ## Description -/

mutual

/-- The text that describes a view. -/
def describe : View → String
  | .null => "None"
  | .boolean value => if value then "True" else "False"
  | .int value => toString value
  | .float value => value.toText
  | .text value => value.quoted
  | .list items => "[" ++ ", ".intercalate (describeItems items) ++ "]"
  | .tuple items => "(" ++ ", ".intercalate (describeItems items) ++ ")"
  | .mapping entries => "\x7b" ++ ", ".intercalate (describeEntries entries) ++ "\x7d"
  | .node label fields => label.name ++ "(" ++ ", ".intercalate (describeFields fields) ++ ")"

/-- The descriptions of views. -/
def describeItems : List View → List String
  | [] => []
  | v :: rest => v.describe :: describeItems rest

/-- The descriptions of the entries of a mapping. -/
def describeEntries : List (String × View) → List String
  | [] => []
  | (key, v) :: rest => (quoted key ++ ": " ++ v.describe) :: describeEntries rest

/-- The descriptions of the fields of a node. -/
def describeFields : List (String × View) → List String
  | [] => []
  | (name, v) :: rest => (name ++ "=" ++ v.describe) :: describeFields rest

end

end View

/-! ## The views of nodes -/

/-- The view of a name that may be absent. -/
def viewOption : Option String → View
  | none => .null
  | some s => .name s

/-- The view of a mapping from names to texts. -/
def viewTexts (entries : List (String × Text)) : View :=
  .mapping (entries.map fun (key, value) => (key, .text value))

/-- The view of a mapping from names to names. -/
def viewNames (entries : List (String × String)) : View :=
  .mapping (entries.map fun (key, value) => (key, .name value))

/-- The label of an atom. -/
def Atom.label (a : Atom) : Label := ⟨"Type", a.name⟩

namespace Ty

/-- The label of a type. -/
def label : Ty → Label
  | .atom _ kind => kind.label
  | .struct _ _ => ⟨"Type", "StructInstance"⟩
  | .optional _ _ => ⟨"Type", "Optional"⟩
  | .array _ _ _ => ⟨"Type", "Array"⟩
  | .map _ _ _ => ⟨"Type", "Map"⟩
  | .pair _ _ _ => ⟨"Type", "Pair"⟩

/-- The fields of a type. -/
def view : Ty → View
  | .atom r kind => .node (Ty.atom r kind).label []
  | .struct r name => .node (Ty.struct r name).label [("type_name", .name name)]
  | .optional _ inner => .node ⟨"Type", "Optional"⟩ [("wrapped_type", inner.view)]
  | .array _ item nonempty =>
    .node ⟨"Type", "Array"⟩ [("item_type", item.view), ("nonempty", .boolean nonempty)]
  | .map _ key value => .node ⟨"Type", "Map"⟩ [("item_type", .tuple [key.view, value.view])]
  | .pair _ left right =>
    .node ⟨"Type", "Pair"⟩ [("left_type", left.view), ("right_type", right.view)]

end Ty

/-- The label of a placeholder. -/
def Placeholder.label : Label := ⟨"Expr", "Placeholder"⟩

/-- The label of an expression. -/
def Expr.label : Expr → Label
  | .boolean _ _ => ⟨"Expr", "Boolean"⟩
  | .int _ _ _ => ⟨"Expr", "Int"⟩
  | .float _ _ => ⟨"Expr", "Float"⟩
  | .null _ => ⟨"Expr", "Null"⟩
  | .string _ _ => ⟨"Expr", "String"⟩
  | .array _ _ => ⟨"Expr", "Array"⟩
  | .pair _ _ _ => ⟨"Expr", "Pair"⟩
  | .map _ _ => ⟨"Expr", "Map"⟩
  | .struct _ _ _ => ⟨"Expr", "Struct"⟩
  | .ifThenElse _ _ _ _ => ⟨"Expr", "IfThenElse"⟩
  | .ident _ _ => ⟨"Expr", "Ident"⟩
  | .get _ _ _ => ⟨"Expr", "Get"⟩
  | .index _ _ _ => ⟨"Expr", "At"⟩
  | .unary _ _ _ => ⟨"Expr", "Unary"⟩
  | .binary _ _ _ _ => ⟨"Expr", "Binary"⟩
  | .apply _ _ _ => ⟨"Expr", "Apply"⟩

mutual

/-- The fields of an expression. -/
def Expr.view : Expr → View
  | .boolean _ value => .node ⟨"Expr", "Boolean"⟩ [("value", .boolean value)]
  | .int _ value _ => .node ⟨"Expr", "Int"⟩ [("value", .int value)]
  | .float _ value => .node ⟨"Expr", "Float"⟩ [("value", .float value)]
  | .null _ => .node ⟨"Expr", "Null"⟩ [("value", .null)]
  | .string _ parts => .node ⟨"Expr", "String"⟩ [("parts", .list (viewParts parts))]
  | .array _ items => .node ⟨"Expr", "Array"⟩ [("items", .list (viewExprs items))]
  | .pair _ left right => .node ⟨"Expr", "Pair"⟩ [("left", left.view), ("right", right.view)]
  | .map _ items => .node ⟨"Expr", "Map"⟩ [("items", .list (viewPairs items))]
  | .struct _ members typeName =>
    .node ⟨"Expr", "Struct"⟩
      [("members", .list (viewMembers members)), ("struct_type_name", viewOption typeName)]
  | .ifThenElse _ condition consequent alternative =>
    .node ⟨"Expr", "IfThenElse"⟩
      [("condition", condition.view), ("consequent", consequent.view),
       ("alternative", alternative.view)]
  | .ident _ name => .node ⟨"Expr", "Ident"⟩ [("name", .name name)]
  | .get _ e member => .node ⟨"Expr", "Get"⟩ [("expr", e.view), ("member", .name member)]
  | .index _ e i => .node ⟨"Expr", "At"⟩ [("expr", e.view), ("index", i.view)]
  | .unary _ op e => .node ⟨"Expr", "Unary"⟩ [("operator", .name op.spelling), ("operand", e.view)]
  | .binary _ op left right =>
    .node ⟨"Expr", "Binary"⟩
      [("operator", .name op.spelling), ("left", left.view), ("right", right.view)]
  | .apply _ function arguments =>
    .node ⟨"Expr", "Apply"⟩
      [("function_name", .name function), ("arguments", .list (viewExprs arguments))]

/-- The views of expressions. -/
def viewExprs : List Expr → List View
  | [] => []
  | e :: rest => e.view :: viewExprs rest

/-- The views of keys and values. -/
def viewPairs : List (Expr × Expr) → List View
  | [] => []
  | (key, value) :: rest => .tuple [key.view, value.view] :: viewPairs rest

/-- The views of texts with expressions. -/
def viewMembers : List (Text × Expr) → List View
  | [] => []
  | (key, value) :: rest => .tuple [.text key, value.view] :: viewMembers rest

/-- The views of the parts of a string or command. -/
def viewParts : List Part → List View
  | [] => []
  | .text text :: rest => .text text :: viewParts rest
  | .placeholder p :: rest => p.view :: viewParts rest

/-- The fields of a placeholder. -/
def Placeholder.view : Placeholder → View
  | .mk _ options e =>
    .node ⟨"Expr", "Placeholder"⟩ [("options", viewTexts options), ("expr", e.view)]

end

/-- The label of a meta value. -/
def Meta.label : Meta → Label
  | .null _ => ⟨"Meta", "Null"⟩
  | .boolean _ _ => ⟨"Meta", "Boolean"⟩
  | .int _ _ _ => ⟨"Meta", "Int"⟩
  | .float _ _ => ⟨"Meta", "Float"⟩
  | .string _ _ => ⟨"Meta", "String"⟩
  | .array _ _ => ⟨"Meta", "Array"⟩
  | .object _ _ => ⟨"Meta", "Object"⟩

mutual

/-- The fields of a meta value. -/
def Meta.view : Meta → View
  | .null _ => .node ⟨"Meta", "Null"⟩ []
  | .boolean _ value => .node ⟨"Meta", "Boolean"⟩ [("value", .boolean value)]
  | .int _ value _ => .node ⟨"Meta", "Int"⟩ [("value", .int value)]
  | .float _ value => .node ⟨"Meta", "Float"⟩ [("value", .float value)]
  | .string _ value => .node ⟨"Meta", "String"⟩ [("value", .text value)]
  | .array _ items => .node ⟨"Meta", "Array"⟩ [("items", .list (viewMetas items))]
  | .object _ members => .node ⟨"Meta", "Object"⟩ [("members", .mapping (viewMetaMembers members))]

/-- The views of meta values. -/
def viewMetas : List Meta → List View
  | [] => []
  | m :: rest => m.view :: viewMetas rest

/-- The views of meta members. -/
def viewMetaMembers : List (String × Meta) → List (String × View)
  | [] => []
  | (key, m) :: rest => (key, m.view) :: viewMetaMembers rest

end

/-- The fields of a version statement. -/
def Version.view (v : Version) : View :=
  .node ⟨"Tree", "Version"⟩ [("identifier", .name v.identifier)]

/-- The fields of an import. -/
def Import.view (i : Import) : View :=
  .node ⟨"Tree", "Import"⟩
    [("uri", .text i.uri), ("namespace", .name i.namespaceName), ("aliases", viewNames i.aliases)]

/-- The fields of a declaration. -/
def Decl.view (d : Decl) : View :=
  .node ⟨"Tree", "Decl"⟩
    [("type", d.type.view), ("name", .name d.name), ("expr", (d.expr.map Expr.view).getD .null)]

/-- The fields of a struct definition. -/
def StructDef.view (s : StructDef) : View :=
  .node ⟨"Tree", "StructTypeDef"⟩
    [("name", .name s.name), ("members", .list (s.members.map Decl.view))]

/-- The fields of a command. -/
def Command.view (c : Command) : View :=
  .node ⟨"Tree", "Command"⟩
    [("parts", .list (viewParts c.parts)), ("heredoc", .boolean c.heredoc)]

/-- The fields of a task. -/
def Task.view (t : Task) : View :=
  .node ⟨"Tree", "Task"⟩
    [("name", .name t.name), ("inputs", .list (t.inputs.map Decl.view)),
     ("postinputs", .list (t.postinputs.map Decl.view)), ("command", t.command.view),
     ("outputs", .list (t.outputs.map Decl.view)),
     ("parameter_meta", .mapping (viewMetaMembers t.parameterMeta)),
     ("runtime", .mapping (t.runtime.map fun (key, e) => (key, e.view))),
     ("meta", .mapping (viewMetaMembers t.metadata))]

/-- The fields of a call. -/
def Call.view (c : Call) : View :=
  .node ⟨"Tree", "Call"⟩
    [("callee_id", .list (c.callee.map .name)), ("alias", viewOption c.givenName),
     ("inputs", .list (c.inputs.map fun input => .tuple [.name input.1, input.2.view]))]

mutual

/-- The fields of an element of a workflow's body. -/
def WorkflowNode.view : WorkflowNode → View
  | .decl d => d.view
  | .call c => c.view
  | .scatter _ body item e =>
    .node ⟨"Tree", "Scatter"⟩
      [("body", .list (viewNodes body)), ("variable", .name item), ("expr", e.view)]
  | .conditional _ body e =>
    .node ⟨"Tree", "Conditional"⟩ [("body", .list (viewNodes body)), ("expr", e.view)]

/-- The views of the elements of a body. -/
def viewNodes : List WorkflowNode → List View
  | [] => []
  | n :: rest => n.view :: viewNodes rest

end

theorem viewNodes_eq (ns : List WorkflowNode) : viewNodes ns = ns.map WorkflowNode.view := by
  induction ns with
  | nil => rfl
  | cons n ns ih => rw [viewNodes, ih, List.map_cons]

/-- The fields of a workflow. -/
def Workflow.view (w : Workflow) : View :=
  .node ⟨"Tree", "Workflow"⟩
    [("name", .name w.name), ("inputs", .list (w.inputs.map Decl.view)),
     ("body", .list (viewNodes w.body)), ("outputs", .list (w.outputs.map Decl.view)),
     ("parameter_meta", .mapping (viewMetaMembers w.parameterMeta)),
     ("meta", .mapping (viewMetaMembers w.metadata))]

/-- The fields of an element of a document. -/
def Element.view : Element → View
  | .importDoc i => i.view
  | .structDef s => s.view
  | .task t => t.view
  | .workflow w => w.view

/-- The fields of a document. -/
def Document.view (d : Document) : View :=
  .node ⟨"Tree", "Document"⟩
    [("version", d.version.view), ("body", .list (d.body.map Element.view))]

end Wdl
