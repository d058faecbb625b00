import Wdl.Ast.Annotation
import Wdl.Proofs.Sameness

/-!
# Wdl.Proofs.Fields -- what the fields of a node hold

A field holds plain data or nodes, by themselves or in lists, tuples and mappings. Views and
children of nodes are both defined node by node, and here they are brought together.

* `Field` is what a field can hold, with its view and the nodes in it. `Field.ofNodes`,
  `Field.ofMembers` and the like are the forms that occur; each has a simp lemma for its view and
  one for its nodes.
* `Node.fields` lists the fields of each kind of node, by name.
* `Node.view_fields` says that the view of a node is made of the views of its fields.
  `Node.children_perm` says that its children are the nodes in its fields, each of them once. They
  need not be in the order of the fields: the expression of a scatter comes before its body, and a
  task's runtime before its parameter meta.
-/

namespace Wdl

/-! ## Views of lists

The views of lists are defined along with those of nodes; these say that they are maps. -/

theorem viewPairs_eq (pairs : List (Expr × Expr)) :
    viewPairs pairs = pairs.map fun pair => .tuple [pair.1.view, pair.2.view] := by
  induction pairs with
  | nil => rfl
  | cons pair rest ih => rw [viewPairs, ih, List.map_cons]

theorem viewMembers_eq (members : List (Text × Expr)) :
    viewMembers members = members.map fun member => .tuple [.text member.1, member.2.view] := by
  induction members with
  | nil => rfl
  | cons member rest ih => rw [viewMembers, ih, List.map_cons]

theorem viewObject_eq (members : List (String × Datum)) :
    viewObject members = members.map fun member => (member.1, member.2.view) := by
  induction members with
  | nil => rfl
  | cons member rest ih => rw [viewObject, ih, List.map_cons]

/-! ## Fields -/

/-- What a field holds. -/
inductive Field where
  | data (value : Datum)
  | text (value : Text)
  | node (n : Node)
  | list (items : List Field)
  | tuple (items : List Field)
  | mapping (entries : List (String × Field))

namespace Field

mutual

/-- The view of what a field holds. -/
def view : Field → View
  | .data value => value.view
  | .text value => .text value
  | .node n => n.view
  | .list items => .list (itemViews items)
  | .tuple items => .tuple (itemViews items)
  | .mapping entries => .mapping (entryViews entries)

/-- The views of items. -/
def itemViews : List Field → List View
  | [] => []
  | x :: rest => x.view :: itemViews rest

/-- The views of named values. -/
def entryViews : List (String × Field) → List (String × View)
  | [] => []
  | (key, x) :: rest => (key, x.view) :: entryViews rest

end

mutual

/-- The nodes that a field holds, in order. -/
def nodes : Field → List Node
  | .data _ => []
  | .text _ => []
  | .node n => [n]
  | .list items | .tuple items => itemNodes items
  | .mapping entries => entryNodes entries

/-- The nodes among items, in order. -/
def itemNodes : List Field → List Node
  | [] => []
  | x :: rest => x.nodes ++ itemNodes rest

/-- The nodes among named values, in order. -/
def entryNodes : List (String × Field) → List Node
  | [] => []
  | (_, x) :: rest => x.nodes ++ entryNodes rest

end

/-- The views of items are those of each. -/
theorem itemViews_eq (items : List Field) : itemViews items = items.map view := by
  induction items with
  | nil => rfl
  | cons x rest ih => rw [itemViews, ih, List.map_cons]

/-- The views of named values are those of each. -/
theorem entryViews_eq (entries : List (String × Field)) :
    entryViews entries = entries.map fun entry => (entry.1, entry.2.view) := by
  induction entries with
  | nil => rfl
  | cons entry rest ih => rw [entryViews, ih, List.map_cons]

/-- The nodes among items are those of each, in order. -/
theorem itemNodes_eq (items : List Field) : itemNodes items = items.flatMap nodes := by
  induction items with
  | nil => rfl
  | cons x rest ih => rw [itemNodes, ih, List.flatMap_cons]

/-- The nodes among named values are those of each, in order. -/
theorem entryNodes_eq (entries : List (String × Field)) :
    entryNodes entries = entries.flatMap fun entry => entry.2.nodes := by
  induction entries with
  | nil => rfl
  | cons entry rest ih => rw [entryNodes, ih, List.flatMap_cons]

/-! ## Kinds of fields -/

/-- Nodes in a list. -/
def ofNodes (ns : List Node) : Field := .list (ns.map .node)

/-- Nodes by name. -/
def ofNamed (entries : List (String × Node)) : Field :=
  .mapping (entries.map fun entry => (entry.1, .node entry.2))

/-- A part of a string or command: just a text, or a node. -/
def ofPart : Part → Field
  | .text t => .text t
  | .placeholder p => .node (.placeholder p)

/-- The parts of a string or command. -/
def ofParts (parts : List Part) : Field := .list (parts.map ofPart)

/-- Keys with values, both of them nodes. -/
def ofPairs (pairs : List (Expr × Expr)) : Field :=
  .list (pairs.map fun pair => .tuple [.node (.expr pair.1), .node (.expr pair.2)])

/-- Texts with nodes, in a list. -/
def ofMembers (members : List (Text × Expr)) : Field :=
  .list (members.map fun member => .tuple [.text member.1, .node (.expr member.2)])

/-- Names with nodes, in a list. -/
def ofInputs (inputs : List (String × Expr)) : Field :=
  .list (inputs.map fun input => .tuple [.data (.text input.1), .node (.expr input.2)])

/-- Meta values by name. -/
def ofMetas (members : List (String × Meta)) : Field :=
  ofNamed (members.map fun member => (member.1, .metaValue member.2))

/-- Texts by name. -/
def ofTexts (entries : List (String × Text)) : Field :=
  .mapping (entries.map fun entry => (entry.1, .text entry.2))

/-- Names by name. -/
def ofNames (entries : List (String × String)) : Field :=
  .data (.object (entries.map fun entry => (entry.1, .text entry.2)))

/-- A text that may be absent. -/
def ofText? (text : Option String) : Field := .data (text.elim .null Datum.text)

@[simp] theorem view_ofNodes (ns : List Node) : (ofNodes ns).view = .list (ns.map Node.view) := by
  simp [ofNodes, view, itemViews_eq]

@[simp] theorem view_ofNamed (entries : List (String × Node)) :
    (ofNamed entries).view = .mapping (entries.map fun entry => (entry.1, entry.2.view)) := by
  simp [ofNamed, view, entryViews_eq]

@[simp] theorem view_ofParts (parts : List Part) :
    (ofParts parts).view = .list (viewParts parts) := by
  have each : parts.map (fun part => (ofPart part).view) = viewParts parts := by
    induction parts with
    | nil => rfl
    | cons part rest ih =>
      rw [List.map_cons, ih]
      cases part <;> rfl
  simp only [ofParts, view, itemViews_eq, List.map_map, Function.comp_def, each]

@[simp] theorem view_ofPairs (pairs : List (Expr × Expr)) :
    (ofPairs pairs).view = .list (viewPairs pairs) := by
  simp [ofPairs, view, itemViews, itemViews_eq, Node.view, viewPairs_eq]

@[simp] theorem view_ofMembers (members : List (Text × Expr)) :
    (ofMembers members).view = .list (viewMembers members) := by
  simp [ofMembers, view, itemViews, itemViews_eq, Node.view, viewMembers_eq]

@[simp] theorem view_ofInputs (inputs : List (String × Expr)) :
    (ofInputs inputs).view =
      .list (inputs.map fun input => .tuple [.name input.1, input.2.view]) := by
  simp [ofInputs, view, itemViews, itemViews_eq, Node.view, Datum.view]

@[simp] theorem view_ofMetas (members : List (String × Meta)) :
    (ofMetas members).view = .mapping (viewMetaMembers members) := by
  simp [ofMetas, viewMetaMembers_eq, Function.comp_def, Node.view]

@[simp] theorem view_ofTexts (entries : List (String × Text)) :
    (ofTexts entries).view = viewTexts entries := by
  simp [ofTexts, view, entryViews_eq, viewTexts]

@[simp] theorem view_ofNames (entries : List (String × String)) :
    (ofNames entries).view = viewNames entries := by
  simp [ofNames, view, Datum.view, viewNames, viewObject_eq, Function.comp_def]

@[simp] theorem view_ofText? (text : Option String) : (ofText? text).view = viewOption text := by
  cases text <;> rfl

@[simp] theorem nodes_ofNodes (ns : List Node) : (ofNodes ns).nodes = ns := by
  simp [ofNodes, nodes, itemNodes_eq, List.flatMap_map]

@[simp] theorem nodes_ofNamed (entries : List (String × Node)) :
    (ofNamed entries).nodes = entries.map Prod.snd := by
  simp [ofNamed, nodes, entryNodes_eq, List.flatMap_map, ← List.map_eq_flatMap]

@[simp] theorem nodes_ofParts (parts : List Part) : (ofParts parts).nodes = partNodes parts := by
  have each : parts.flatMap (fun part => (ofPart part).nodes) = partNodes parts := by
    induction parts with
    | nil => rfl
    | cons part rest ih =>
      rw [List.flatMap_cons, ih]
      cases part <;> rfl
  simp only [ofParts, nodes, itemNodes_eq, List.flatMap_map, each]

@[simp] theorem nodes_ofPairs (pairs : List (Expr × Expr)) :
    (ofPairs pairs).nodes = pairs.flatMap fun pair => [.expr pair.1, .expr pair.2] := by
  simp [ofPairs, nodes, itemNodes, itemNodes_eq, List.flatMap_map]

@[simp] theorem nodes_ofMembers (members : List (Text × Expr)) :
    (ofMembers members).nodes = memberNodes members := by
  simp [ofMembers, nodes, itemNodes, itemNodes_eq, List.flatMap_map, memberNodes,
    ← List.map_eq_flatMap]

@[simp] theorem nodes_ofInputs (inputs : List (String × Expr)) :
    (ofInputs inputs).nodes = memberNodes inputs := by
  simp [ofInputs, nodes, itemNodes, itemNodes_eq, List.flatMap_map, memberNodes,
    ← List.map_eq_flatMap]

@[simp] theorem nodes_ofMetas (members : List (String × Meta)) :
    (ofMetas members).nodes = metaNodes members := by
  simp [ofMetas, metaNodes, Function.comp_def]

@[simp] theorem nodes_ofTexts (entries : List (String × Text)) : (ofTexts entries).nodes = [] := by
  rw [ofTexts, nodes, entryNodes_eq, List.flatMap_map]
  exact List.flatMap_eq_nil_iff.2 fun _ _ => rfl

@[simp] theorem nodes_ofNames (entries : List (String × String)) : (ofNames entries).nodes = [] :=
  rfl

@[simp] theorem nodes_ofText? (text : Option String) : (ofText? text).nodes = [] := rfl

end Field

/-! ## The fields of nodes -/

/-- The fields of a type. -/
def Ty.fields : Ty → List (String × Field)
  | .atom _ _ => []
  | .struct _ name => [("type_name", .data (.text name))]
  | .optional _ inner => [("wrapped_type", .node (.type inner))]
  | .array _ item nonempty =>
    [("item_type", .node (.type item)), ("nonempty", .data (.boolean nonempty))]
  | .map _ key value => [("item_type", .tuple [.node (.type key), .node (.type value)])]
  | .pair _ left right => [("left_type", .node (.type left)), ("right_type", .node (.type right))]

/-- The fields of an expression. -/
def Expr.fields : Expr → List (String × Field)
  | .boolean _ value => [("value", .data (.boolean value))]
  | .int _ value _ => [("value", .data (.int value))]
  | .float _ value => [("value", .data (.float value))]
  | .null _ => [("value", .data .null)]
  | .string _ parts => [("parts", .ofParts parts)]
  | .array _ items => [("items", .ofNodes (items.map .expr))]
  | .pair _ left right => [("left", .node (.expr left)), ("right", .node (.expr right))]
  | .map _ items => [("items", .ofPairs items)]
  | .struct _ members typeName =>
    [("members", .ofMembers members), ("struct_type_name", .ofText? typeName)]
  | .ifThenElse _ condition consequent alternative =>
    [("condition", .node (.expr condition)), ("consequent", .node (.expr consequent)),
     ("alternative", .node (.expr alternative))]
  | .ident _ name => [("name", .data (.text name))]
  | .get _ e member => [("expr", .node (.expr e)), ("member", .data (.text member))]
  | .index _ e i => [("expr", .node (.expr e)), ("index", .node (.expr i))]
  | .unary _ op e => [("operator", .data (.text op.spelling)), ("operand", .node (.expr e))]
  | .binary _ op left right =>
    [("operator", .data (.text op.spelling)), ("left", .node (.expr left)),
     ("right", .node (.expr right))]
  | .apply _ function arguments =>
    [("function_name", .data (.text function)), ("arguments", .ofNodes (arguments.map .expr))]

/-- The fields of a placeholder. -/
def Placeholder.fields (p : Placeholder) : List (String × Field) :=
  [("options", .ofTexts p.options), ("expr", .node (.expr p.expr))]

/-- The fields of a meta value. -/
def Meta.fields : Meta → List (String × Field)
  | .null _ => []
  | .boolean _ value => [("value", .data (.boolean value))]
  | .int _ value _ => [("value", .data (.int value))]
  | .float _ value => [("value", .data (.float value))]
  | .string _ value => [("value", .text value)]
  | .array _ items => [("items", .ofNodes (items.map .metaValue))]
  | .object _ members => [("members", .ofMetas members)]

/-- The fields of a declaration. -/
def Decl.fields (d : Decl) : List (String × Field) :=
  [("type", .node (.type d.type)), ("name", .data (.text d.name)),
   ("expr", d.expr.elim (.data .null) fun e => .node (.expr e))]

/-- The fields of a task. -/
def Task.fields (t : Task) : List (String × Field) :=
  [("name", .data (.text t.name)), ("inputs", .ofNodes (declNodes t.inputs)),
   ("postinputs", .ofNodes (declNodes t.postinputs)), ("command", .node (.command t.command)),
   ("outputs", .ofNodes (declNodes t.outputs)), ("parameter_meta", .ofMetas t.parameterMeta),
   ("runtime", .ofNamed (t.runtime.map fun entry => (entry.1, .expr entry.2))),
   ("meta", .ofMetas t.metadata)]

/-- The fields of a workflow. -/
def Workflow.fields (w : Workflow) : List (String × Field) :=
  [("name", .data (.text w.name)), ("inputs", .ofNodes (declNodes w.inputs)),
   ("body", .ofNodes (w.body.map WorkflowNode.node)), ("outputs", .ofNodes (declNodes w.outputs)),
   ("parameter_meta", .ofMetas w.parameterMeta), ("meta", .ofMetas w.metadata)]

namespace Node

/-- The fields of a node, by name. -/
def fields : Node → List (String × Field)
  | .document d =>
    [("version", .node (.version d.version)), ("body", .ofNodes (d.body.map Element.node))]
  | .version v => [("identifier", .data (.text v.identifier))]
  | .importDoc i =>
    [("uri", .text i.uri), ("namespace", .data (.text i.namespaceName)),
     ("aliases", .ofNames i.aliases)]
  | .structDef s => [("name", .data (.text s.name)), ("members", .ofNodes (declNodes s.members))]
  | .task t => t.fields
  | .command c => [("parts", .ofParts c.parts), ("heredoc", .data (.boolean c.heredoc))]
  | .workflow w => w.fields
  | .call c =>
    [("callee_id", .data (.list (c.callee.map .text))), ("alias", .ofText? c.givenName),
     ("inputs", .ofInputs c.inputs)]
  | .scatter _ body item e =>
    [("body", .ofNodes (body.map WorkflowNode.node)), ("variable", .data (.text item)),
     ("expr", .node (.expr e))]
  | .conditional _ body e =>
    [("body", .ofNodes (body.map WorkflowNode.node)), ("expr", .node (.expr e))]
  | .decl d => d.fields
  | .type t => t.fields
  | .expr e => e.fields
  | .placeholder p => p.fields
  | .metaValue m => m.fields

/-- The nodes that the fields of a node hold, field by field. -/
def fieldNodes (n : Node) : List Node := n.fields.flatMap fun field => field.2.nodes

end Node

/-! ## Fields and views -/

/-- The view of a node of a kind with some fields. -/
def viewOf (label : Label) (fields : List (String × Field)) : View :=
  .node label (fields.map fun field => (field.1, field.2.view))

/-- The view of a type is made of the views of its fields. -/
theorem Ty.view_fields (t : Ty) : t.view = viewOf t.label t.fields := by
  cases t <;> simp [view, label, fields, viewOf, Field.view, Field.itemViews, Datum.view, Node.view]

/-- The view of an expression is made of the views of its fields. -/
theorem Expr.view_fields (e : Expr) : e.view = viewOf e.label e.fields := by
  cases e <;> simp [view, label, fields, viewOf, Field.view, Datum.view, Node.view, viewExprs_eq,
    Function.comp_def]

theorem Placeholder.view_fields (p : Placeholder) : p.view = viewOf Placeholder.label p.fields := by
  cases p
  simp [view, Placeholder.label, fields, viewOf, Field.view, Node.view, options, expr]

/-- The view of a meta value is made of the views of its fields. -/
theorem Meta.view_fields (m : Meta) : m.view = viewOf m.label m.fields := by
  cases m <;> simp [view, label, fields, viewOf, Field.view, Datum.view, Node.view, viewMetas_eq,
    Function.comp_def]

theorem Decl.view_fields (d : Decl) : d.view = viewOf (Node.decl d).label d.fields := by
  obtain ⟨range, type, name, expr⟩ := d
  cases expr <;> simp [view, Node.label, fields, viewOf, Field.view, Datum.view, Node.view]

theorem declNodes_views (ds : List Decl) : (declNodes ds).map Node.view = ds.map Decl.view := by
  simp [declNodes, Function.comp_def, Node.view]

theorem Task.view_fields (t : Task) : t.view = viewOf (Node.task t).label t.fields := by
  simp [view, Node.label, fields, viewOf, Field.view, Datum.view, Node.view, declNodes_views,
    Function.comp_def]

theorem bodyNodes_views (body : List WorkflowNode) :
    (body.map WorkflowNode.node).map Node.view = viewNodes body := by
  simp [viewNodes_eq, Function.comp_def, WorkflowNode.node_view]

theorem Workflow.view_fields (w : Workflow) : w.view = viewOf (Node.workflow w).label w.fields := by
  simp only [view, Node.label, fields, viewOf, Field.view, Field.view_ofNodes, Field.view_ofMetas,
    Datum.view, declNodes_views, bodyNodes_views, List.map_cons, List.map_nil]

/-- The view of a node is made of the views of its fields. -/
theorem Node.view_fields (n : Node) : n.view = viewOf n.label n.fields := by
  cases n with
  | document d =>
    have body : (d.body.map Element.node).map Node.view = d.body.map Element.view := by
      simp [Function.comp_def, Element.node_view]
    show d.view = _
    simp [Document.view, viewOf, fields, label, Field.view, Node.view, ← body]
  | version v => rfl
  | importDoc i =>
    show i.view = _
    simp [Import.view, viewOf, fields, label, Field.view, Datum.view]
  | structDef s =>
    show s.view = _
    simp [StructDef.view, viewOf, fields, label, Field.view, Datum.view, declNodes_views]
  | task t => exact t.view_fields
  | command c =>
    show c.view = _
    simp [Command.view, viewOf, fields, label, Field.view, Datum.view]
  | workflow w => exact w.view_fields
  -- the name of what is called is a list of plain names, so it is compared item by item
  | call c =>
    have callee : ∀ names : List String, viewItems (names.map .text) = names.map .name := by
      intro names
      induction names with
      | nil => rfl
      | cons name rest ih => simp [viewItems, Datum.view, ih]
    show c.view = _
    simp [Call.view, viewOf, fields, label, Field.view, Datum.view, callee]
  | scatter range body item e =>
    show (WorkflowNode.scatter range body item e).view = _
    simp only [WorkflowNode.view, viewOf, fields, label, Field.view, Field.view_ofNodes, Datum.view,
      Node.view, bodyNodes_views, List.map_cons, List.map_nil]
  | conditional range body e =>
    show (WorkflowNode.conditional range body e).view = _
    simp only [WorkflowNode.view, viewOf, fields, label, Field.view, Field.view_ofNodes, Node.view,
      bodyNodes_views, List.map_cons, List.map_nil]
  | decl d => exact d.view_fields
  | type t => exact t.view_fields
  | expr e => exact e.view_fields
  | placeholder p => exact p.view_fields
  | metaValue m => exact m.view_fields

/-! ## Fields and children

Expressions, declarations and meta values list their children in the order of their fields. Tasks
and workflows do not, and neither do the sections in a workflow's body. -/

/-- The children of an expression are in the order of its fields. -/
theorem Expr.children_eq (e : Expr) : e.children = (Node.expr e).fieldNodes := by
  cases e <;> simp [children, Node.fieldNodes, Node.fields, fields, Field.nodes]

/-- The children of a meta value are in the order of its fields. -/
theorem Meta.children_eq (m : Meta) : m.children = (Node.metaValue m).fieldNodes := by
  cases m <;> simp [children, Node.fieldNodes, Node.fields, fields, Field.nodes]

/-- The children of a declaration are in the order of its fields. -/
theorem Decl.children_eq (d : Decl) : d.children = (Node.decl d).fieldNodes := by
  obtain ⟨range, type, name, expr⟩ := d
  cases expr <;> simp [children, Node.fieldNodes, Node.fields, fields, Field.nodes]

/-- The children of a task are the nodes in its fields. -/
theorem Task.children_perm (t : Task) : t.children.Perm (Node.task t).fieldNodes := by
  have held : (Node.task t).fieldNodes =
      (declNodes t.inputs ++ declNodes t.postinputs ++ .command t.command :: declNodes t.outputs) ++
        (metaNodes t.parameterMeta ++ (memberNodes t.runtime ++ metaNodes t.metadata)) := by
    simp [Node.fieldNodes, Node.fields, fields, Field.nodes, memberNodes, Function.comp_def]
  rw [held, children, List.append_assoc, List.append_assoc]
  -- the parameter meta is a field before the runtime and the meta, but its nodes come behind theirs
  refine List.Perm.append_left _ ?_
  rw [← List.append_assoc]
  exact List.perm_append_comm

/-- The children of a workflow are the nodes in its fields. -/
theorem Workflow.children_perm (w : Workflow) : w.children.Perm (Node.workflow w).fieldNodes := by
  have held : (Node.workflow w).fieldNodes =
      (declNodes w.inputs ++ w.body.map WorkflowNode.node ++ declNodes w.outputs) ++
        (metaNodes w.parameterMeta ++ metaNodes w.metadata) := by
    simp [Node.fieldNodes, Node.fields, fields, Field.nodes]
  rw [held, children, List.append_assoc]
  exact List.Perm.append_left _ List.perm_append_comm

/-- The children of a node are the nodes in its fields, each once. -/
theorem Node.children_perm (n : Node) : n.children.Perm n.fieldNodes := by
  cases n with
  | task t => exact t.children_perm
  | workflow w => exact w.children_perm
  | scatter range body item e =>
    -- the expression is the last field, but the first child
    have held : (Node.scatter range body item e).fieldNodes =
        body.map WorkflowNode.node ++ [.expr e] := by
      simp [fieldNodes, fields, Field.nodes]
    rw [held]
    exact (List.perm_append_singleton _ _).symm
  | conditional range body e =>
    have held : (Node.conditional range body e).fieldNodes =
        body.map WorkflowNode.node ++ [.expr e] := by
      simp [fieldNodes, fields, Field.nodes]
    rw [held]
    exact (List.perm_append_singleton _ _).symm
  | decl d => exact .of_eq d.children_eq
  | expr e => exact .of_eq e.children_eq
  | metaValue m => exact .of_eq m.children_eq
  | type t =>
    refine .of_eq ?_
    cases t <;>
      simp [children, Ty.parameters, fieldNodes, fields, Ty.fields, Field.nodes, Field.itemNodes]
  | placeholder p =>
    refine .of_eq ?_
    simp [children, fieldNodes, fields, Placeholder.fields, Field.nodes]
  | document d => exact .of_eq (by simp [children, fieldNodes, fields, Field.nodes])
  | version v => exact .of_eq rfl
  | importDoc i => exact .of_eq rfl
  | structDef s => exact .of_eq (by simp [children, fieldNodes, fields, Field.nodes])
  | command c => exact .of_eq (by simp [children, fieldNodes, fields, Field.nodes])
  | call c => exact .of_eq (by simp [children, fieldNodes, fields, Field.nodes])

end Wdl
