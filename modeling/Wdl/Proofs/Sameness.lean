import Mathlib.Data.List.Forall2
import Mathlib.Data.Option.Basic
import Wdl.Ast.Node
import Wdl.Proofs.Comparison

/-!
# Wdl.Proofs.Sameness -- nodes that are the same wherever they are

Two nodes are the same if their views are. One node is a rearrangement of another if it only differs
in positions, in the notation of integers, in the source text of a document, and in the order of the
entries of mappings, at any depth. Rearranging nodes on either side changes nothing about whether
they are the same. And nodes that are the same are of one kind, and their children can be matched:
by key where they are the values of a mapping, in order elsewhere.

* `Node.Rearranged` and the relations under it, one for each type of nodes, say what may differ.
  `Reordered` is the part that is about mappings.
* `Node.Rearranged.normal_eq` is the first half: rearranged nodes have views with one normal form.
  The views must be `View.Keyed`, since the entries of a mapping that has a key twice cannot be told
  apart by their keys.
* `ChildGroup` is a field with children, `Node.groups` are the fields of a node, and
  `ChildGroup.Match` relates two such fields. `Node.groups_match` is the second half.

Views and their normal forms are in `Wdl.Ast.View`. Of them `View.same_iff` is used throughout: two
views are the same just if they have one normal form.
-/

namespace Wdl

/-! ## Rearranged nodes -/

/-- The values under each key are related; the entries may come in another order. -/
def Reordered {α : Type} (R : α → α → Prop) (xs ys : List (String × α)) : Prop :=
  ∃ zs, List.Forall₂ (fun x z => x.1 = z.1 ∧ R x.2 z.2) xs zs ∧ zs.Perm ys

/-- The same type at other positions. -/
inductive Ty.Rearranged : Ty → Ty → Prop
  | atom {r s : Range} {kind : Atom} : Rearranged (.atom r kind) (.atom s kind)
  | struct {r s : Range} {name : String} : Rearranged (.struct r name) (.struct s name)
  | optional {r s : Range} {a b : Ty} : Rearranged a b → Rearranged (.optional r a) (.optional s b)
  | array {r s : Range} {a b : Ty} {nonempty : Bool} : Rearranged a b →
      Rearranged (.array r a nonempty) (.array s b nonempty)
  | map {r s : Range} {k l a b : Ty} : Rearranged k l → Rearranged a b →
      Rearranged (.map r k a) (.map s l b)
  | pair {r s : Range} {a b c d : Ty} : Rearranged a b → Rearranged c d →
      Rearranged (.pair r a c) (.pair s b d)

mutual

/-- The same expression at other positions, with other notations of integers and with the options
of placeholders in other orders. -/
inductive Expr.Rearranged : Expr → Expr → Prop
  | boolean {r s : Range} {value : Bool} : Expr.Rearranged (.boolean r value) (.boolean s value)
  | int {r s : Range} {value : Int} {radix radix' : Radix} :
      Expr.Rearranged (.int r value radix) (.int s value radix')
  | float {r s : Range} {value : Binary64} : Expr.Rearranged (.float r value) (.float s value)
  | null {r s : Range} : Expr.Rearranged (.null r) (.null s)
  | string {r s : Range} {ps qs : List Part} : PartsRearranged ps qs →
      Expr.Rearranged (.string r ps) (.string s qs)
  | array {r s : Range} {xs ys : List Expr} : ExprsRearranged xs ys →
      Expr.Rearranged (.array r xs) (.array s ys)
  | pair {r s : Range} {a b c d : Expr} : Expr.Rearranged a b → Expr.Rearranged c d →
      Expr.Rearranged (.pair r a c) (.pair s b d)
  | map {r s : Range} {xs ys : List (Expr × Expr)} : PairsRearranged xs ys →
      Expr.Rearranged (.map r xs) (.map s ys)
  | struct {r s : Range} {xs ys : List (Text × Expr)} {name : Option String} :
      MembersRearranged xs ys → Expr.Rearranged (.struct r xs name) (.struct s ys name)
  | ifThenElse {r s : Range} {a b c d e f : Expr} : Expr.Rearranged a b → Expr.Rearranged c d →
      Expr.Rearranged e f → Expr.Rearranged (.ifThenElse r a c e) (.ifThenElse s b d f)
  | ident {r s : Range} {name : String} : Expr.Rearranged (.ident r name) (.ident s name)
  | get {r s : Range} {a b : Expr} {member : String} : Expr.Rearranged a b →
      Expr.Rearranged (.get r a member) (.get s b member)
  | index {r s : Range} {a b i j : Expr} : Expr.Rearranged a b → Expr.Rearranged i j →
      Expr.Rearranged (.index r a i) (.index s b j)
  | unary {r s : Range} {op : UnaryOp} {a b : Expr} : Expr.Rearranged a b →
      Expr.Rearranged (.unary r op a) (.unary s op b)
  | binary {r s : Range} {op : BinaryOp} {a b c d : Expr} : Expr.Rearranged a b →
      Expr.Rearranged c d → Expr.Rearranged (.binary r op a c) (.binary s op b d)
  | apply {r s : Range} {function : String} {xs ys : List Expr} : ExprsRearranged xs ys →
      Expr.Rearranged (.apply r function xs) (.apply s function ys)

/-- The same expressions in order. -/
inductive ExprsRearranged : List Expr → List Expr → Prop
  | nil : ExprsRearranged [] []
  | cons {x y : Expr} {xs ys : List Expr} : Expr.Rearranged x y → ExprsRearranged xs ys →
      ExprsRearranged (x :: xs) (y :: ys)

/-- The same keys and values in order. -/
inductive PairsRearranged : List (Expr × Expr) → List (Expr × Expr) → Prop
  | nil : PairsRearranged [] []
  | cons {k l x y : Expr} {xs ys : List (Expr × Expr)} : Expr.Rearranged k l → Expr.Rearranged x y →
      PairsRearranged xs ys → PairsRearranged ((k, x) :: xs) ((l, y) :: ys)

/-- The same keys with the same expressions in order. -/
inductive MembersRearranged : List (Text × Expr) → List (Text × Expr) → Prop
  | nil : MembersRearranged [] []
  | cons {key : Text} {x y : Expr} {xs ys : List (Text × Expr)} : Expr.Rearranged x y →
      MembersRearranged xs ys → MembersRearranged ((key, x) :: xs) ((key, y) :: ys)

/-- The same parts in order. -/
inductive PartsRearranged : List Part → List Part → Prop
  | nil : PartsRearranged [] []
  | text {text : Text} {ps qs : List Part} : PartsRearranged ps qs →
      PartsRearranged (.text text :: ps) (.text text :: qs)
  | placeholder {p q : Placeholder} {ps qs : List Part} : Placeholder.Rearranged p q →
      PartsRearranged ps qs → PartsRearranged (.placeholder p :: ps) (.placeholder q :: qs)

/-- The same placeholder, its options in another order. -/
inductive Placeholder.Rearranged : Placeholder → Placeholder → Prop
  | mk {r s : Range} {os ps : PlaceholderOptions} {a b : Expr} : os.Perm ps → Expr.Rearranged a b →
      Placeholder.Rearranged (.mk r os a) (.mk s ps b)

end

mutual

/-- The same meta value at other positions, with other notations of integers and with the members
of objects in other orders. -/
inductive Meta.Rearranged : Meta → Meta → Prop
  | null {r s : Range} : Meta.Rearranged (.null r) (.null s)
  | boolean {r s : Range} {value : Bool} : Meta.Rearranged (.boolean r value) (.boolean s value)
  | int {r s : Range} {value : Int} {radix radix' : Radix} :
      Meta.Rearranged (.int r value radix) (.int s value radix')
  | float {r s : Range} {value : Binary64} : Meta.Rearranged (.float r value) (.float s value)
  | string {r s : Range} {value : Text} : Meta.Rearranged (.string r value) (.string s value)
  | array {r s : Range} {xs ys : List Meta} : MetasRearranged xs ys →
      Meta.Rearranged (.array r xs) (.array s ys)
  | object {r s : Range} {xs ys zs : List (String × Meta)} : MetaMembersRearranged xs zs →
      zs.Perm ys → Meta.Rearranged (.object r xs) (.object s ys)

/-- The same meta values in order. -/
inductive MetasRearranged : List Meta → List Meta → Prop
  | nil : MetasRearranged [] []
  | cons {x y : Meta} {xs ys : List Meta} : Meta.Rearranged x y → MetasRearranged xs ys →
      MetasRearranged (x :: xs) (y :: ys)

/-- The same keys with the same meta values in order. -/
inductive MetaMembersRearranged : List (String × Meta) → List (String × Meta) → Prop
  | nil : MetaMembersRearranged [] []
  | cons {key : String} {x y : Meta} {xs ys : List (String × Meta)} : Meta.Rearranged x y →
      MetaMembersRearranged xs ys → MetaMembersRearranged ((key, x) :: xs) ((key, y) :: ys)

end

/-- The same declaration at other positions. -/
structure Decl.Rearranged (a b : Decl) : Prop where
  type : a.type.Rearranged b.type
  name : a.name = b.name
  expr : Option.Rel Expr.Rearranged a.expr b.expr

/-- The same import at another position, its aliases in another order. -/
structure Import.Rearranged (a b : Import) : Prop where
  uri : a.uri = b.uri
  namespaceName : a.namespaceName = b.namespaceName
  aliases : a.aliases.Perm b.aliases

/-- The same struct definition at other positions. -/
structure StructDef.Rearranged (a b : StructDef) : Prop where
  name : a.name = b.name
  members : List.Forall₂ Decl.Rearranged a.members b.members

/-- The same command at other positions. -/
structure Command.Rearranged (a b : Command) : Prop where
  parts : PartsRearranged a.parts b.parts
  heredoc : a.heredoc = b.heredoc

/-- The same task at other positions, its runtime and meta entries in other orders. -/
structure Task.Rearranged (a b : Task) : Prop where
  name : a.name = b.name
  inputs : List.Forall₂ Decl.Rearranged a.inputs b.inputs
  postinputs : List.Forall₂ Decl.Rearranged a.postinputs b.postinputs
  command : a.command.Rearranged b.command
  outputs : List.Forall₂ Decl.Rearranged a.outputs b.outputs
  parameterMeta : Reordered Meta.Rearranged a.parameterMeta b.parameterMeta
  runtime : Reordered Expr.Rearranged a.runtime b.runtime
  metadata : Reordered Meta.Rearranged a.metadata b.metadata

/-- The same call at other positions. -/
structure Call.Rearranged (a b : Call) : Prop where
  callee : a.callee = b.callee
  givenName : a.givenName = b.givenName
  inputs : List.Forall₂ (fun x y => x.1 = y.1 ∧ x.2.Rearranged y.2) a.inputs b.inputs

mutual

/-- The same element of a workflow's body at other positions. -/
inductive WorkflowNode.Rearranged : WorkflowNode → WorkflowNode → Prop
  | decl {a b : Decl} : a.Rearranged b → WorkflowNode.Rearranged (.decl a) (.decl b)
  | call {a b : Call} : a.Rearranged b → WorkflowNode.Rearranged (.call a) (.call b)
  | scatter {r s : Range} {ms ns : List WorkflowNode} {item : String} {a b : Expr} :
      BodyRearranged ms ns → a.Rearranged b →
      WorkflowNode.Rearranged (.scatter r ms item a) (.scatter s ns item b)
  | conditional {r s : Range} {ms ns : List WorkflowNode} {a b : Expr} :
      BodyRearranged ms ns → a.Rearranged b →
      WorkflowNode.Rearranged (.conditional r ms a) (.conditional s ns b)

/-- The same body at other positions. -/
inductive BodyRearranged : List WorkflowNode → List WorkflowNode → Prop
  | nil : BodyRearranged [] []
  | cons {m n : WorkflowNode} {ms ns : List WorkflowNode} : WorkflowNode.Rearranged m n →
      BodyRearranged ms ns → BodyRearranged (m :: ms) (n :: ns)

end

/-- The same workflow at other positions, its meta entries in other orders. -/
structure Workflow.Rearranged (a b : Workflow) : Prop where
  name : a.name = b.name
  inputs : List.Forall₂ Decl.Rearranged a.inputs b.inputs
  body : BodyRearranged a.body b.body
  outputs : List.Forall₂ Decl.Rearranged a.outputs b.outputs
  parameterMeta : Reordered Meta.Rearranged a.parameterMeta b.parameterMeta
  metadata : Reordered Meta.Rearranged a.metadata b.metadata

/-- The same element of a document at other positions. -/
inductive Element.Rearranged : Element → Element → Prop
  | importDoc {a b : Import} : a.Rearranged b → Rearranged (.importDoc a) (.importDoc b)
  | structDef {a b : StructDef} : a.Rearranged b → Rearranged (.structDef a) (.structDef b)
  | task {a b : Task} : a.Rearranged b → Rearranged (.task a) (.task b)
  | workflow {a b : Workflow} : a.Rearranged b → Rearranged (.workflow a) (.workflow b)

/-- The same document at other positions, in whatever text. -/
structure Document.Rearranged (a b : Document) : Prop where
  version : a.version.identifier = b.version.identifier
  body : List.Forall₂ Element.Rearranged a.body b.body

/-- The same node but for positions, notations of integers, source texts and the order of entries
of mappings. -/
inductive Node.Rearranged : Node → Node → Prop
  | document {a b : Document} : a.Rearranged b → Rearranged (.document a) (.document b)
  | version {a b : Version} : a.identifier = b.identifier → Rearranged (.version a) (.version b)
  | importDoc {a b : Import} : a.Rearranged b → Rearranged (.importDoc a) (.importDoc b)
  | structDef {a b : StructDef} : a.Rearranged b → Rearranged (.structDef a) (.structDef b)
  | task {a b : Task} : a.Rearranged b → Rearranged (.task a) (.task b)
  | command {a b : Command} : a.Rearranged b → Rearranged (.command a) (.command b)
  | workflow {a b : Workflow} : a.Rearranged b → Rearranged (.workflow a) (.workflow b)
  | call {a b : Call} : a.Rearranged b → Rearranged (.call a) (.call b)
  | scatter {r s : Range} {ms ns : List WorkflowNode} {item : String} {a b : Expr} :
      BodyRearranged ms ns → a.Rearranged b →
      Rearranged (.scatter r ms item a) (.scatter s ns item b)
  | conditional {r s : Range} {ms ns : List WorkflowNode} {a b : Expr} :
      BodyRearranged ms ns → a.Rearranged b →
      Rearranged (.conditional r ms a) (.conditional s ns b)
  | decl {a b : Decl} : a.Rearranged b → Rearranged (.decl a) (.decl b)
  | type {a b : Ty} : a.Rearranged b → Rearranged (.type a) (.type b)
  | expr {a b : Expr} : a.Rearranged b → Rearranged (.expr a) (.expr b)
  | placeholder {a b : Placeholder} : a.Rearranged b → Rearranged (.placeholder a) (.placeholder b)
  | metaValue {a b : Meta} : a.Rearranged b → Rearranged (.metaValue a) (.metaValue b)

/-! ## The views of rearranged nodes

Each lemma is the case of one relation, and goes through its constructors. Where children are in
order, their normal forms agree one by one; where they are the entries of a mapping, sorting undoes
that they come in another order. -/

section Views

open View

/-- Mappings have one normal form if their values have, whatever the order of their entries. -/
theorem normal_mapping_congr {xs ys zs : List (String × View)} (keys : (xs.map Prod.fst).Nodup)
    (values : normalEntries xs = normalEntries zs) (perm : zs.Perm ys) :
    (mapping xs).normal = (mapping ys).normal := by
  rw [normal, normal, mapping.injEq, mergeSort_entryLe_eq_iff (by simpa using keys), values,
    normalEntries_eq, normalEntries_eq]
  exact perm.map _

theorem normal_node (label : Label) (fields : List (String × View)) :
    (node label fields).normal = .node label (normalEntries fields) := by
  rw [normal]

theorem normal_list (items : List View) : (list items).normal = .list (normalItems items) := by
  rw [normal]

theorem normal_viewTexts {xs ys : List (String × Text)} (keyed : (viewTexts xs).Keyed)
    (perm : xs.Perm ys) : (viewTexts xs).normal = (viewTexts ys).normal :=
  normal_mapping_congr keyed.1 rfl (perm.map _)

theorem normal_viewNames {xs ys : List (String × String)} (keyed : (viewNames xs).Keyed)
    (perm : xs.Perm ys) : (viewNames xs).normal = (viewNames ys).normal :=
  normal_mapping_congr keyed.1 rfl (perm.map _)

theorem Ty.Rearranged.view_eq {a b : Ty} (h : a.Rearranged b) : a.view = b.view := by
  induction h with
  | atom | struct => simp only [Ty.view, Ty.label]
  | optional _ ih | array _ ih => simp only [Ty.view, ih]
  | map _ _ ih ih' | pair _ _ ih ih' => simp only [Ty.view, ih, ih']

mutual

theorem Expr.Rearranged.normal_eq : (a : Expr) → {b : Expr} → a.Rearranged b → a.view.Keyed →
    a.view.normal = b.view.normal
  | .boolean _ _, _, .boolean, _ | .int _ _ _, _, .int, _ | .float _ _, _, .float, _
  | .null _, _, .null, _ | .ident _ _, _, .ident, _ => by simp only [Expr.view]
  | .string _ ps, _, .string h, keyed => by
    simp only [Expr.view, Keyed, KeyedEntries, and_true] at keyed
    simp only [Expr.view, normal, normalEntries, PartsRearranged.normal_eq ps h keyed]
  | .array _ xs, _, .array h, keyed => by
    simp only [Expr.view, Keyed, KeyedEntries, and_true] at keyed
    simp only [Expr.view, normal, normalEntries, ExprsRearranged.normal_eq xs h keyed]
  | .pair _ x y, _, .pair h h', keyed => by
    simp only [Expr.view, Keyed, KeyedEntries, and_true] at keyed
    simp only [Expr.view, normal, normalEntries, Expr.Rearranged.normal_eq x h keyed.1,
      Expr.Rearranged.normal_eq y h' keyed.2]
  | .map _ xs, _, .map h, keyed => by
    simp only [Expr.view, Keyed, KeyedEntries, and_true] at keyed
    simp only [Expr.view, normal, normalEntries, PairsRearranged.normal_eq xs h keyed]
  | .struct _ xs _, _, .struct h, keyed => by
    simp only [Expr.view, Keyed, KeyedEntries, and_true] at keyed
    simp only [Expr.view, normal, normalEntries, MembersRearranged.normal_eq xs h keyed.1]
  | .ifThenElse _ x y z, _, .ifThenElse h h' h'', keyed => by
    simp only [Expr.view, Keyed, KeyedEntries, and_true] at keyed
    simp only [Expr.view, normal, normalEntries, Expr.Rearranged.normal_eq x h keyed.1,
      Expr.Rearranged.normal_eq y h' keyed.2.1, Expr.Rearranged.normal_eq z h'' keyed.2.2]
  | .get _ x _, _, .get h, keyed => by
    simp only [Expr.view, Keyed, KeyedEntries, and_true] at keyed
    simp only [Expr.view, normal, normalEntries, Expr.Rearranged.normal_eq x h keyed]
  | .index _ x i, _, .index h h', keyed => by
    simp only [Expr.view, Keyed, KeyedEntries, and_true] at keyed
    simp only [Expr.view, normal, normalEntries, Expr.Rearranged.normal_eq x h keyed.1,
      Expr.Rearranged.normal_eq i h' keyed.2]
  | .unary _ _ x, _, .unary h, keyed => by
    simp only [Expr.view, Keyed, KeyedEntries, and_true, true_and] at keyed
    simp only [Expr.view, normal, normalEntries, Expr.Rearranged.normal_eq x h keyed]
  | .binary _ _ x y, _, .binary h h', keyed => by
    simp only [Expr.view, Keyed, KeyedEntries, and_true, true_and] at keyed
    simp only [Expr.view, normal, normalEntries, Expr.Rearranged.normal_eq x h keyed.1,
      Expr.Rearranged.normal_eq y h' keyed.2]
  | .apply _ _ xs, _, .apply h, keyed => by
    simp only [Expr.view, Keyed, KeyedEntries, and_true, true_and] at keyed
    simp only [Expr.view, normal, normalEntries, ExprsRearranged.normal_eq xs h keyed]

theorem ExprsRearranged.normal_eq : (xs : List Expr) → {ys : List Expr} → ExprsRearranged xs ys →
    KeyedItems (viewExprs xs) → normalItems (viewExprs xs) = normalItems (viewExprs ys)
  | [], _, .nil, _ => rfl
  | x :: xs, _, .cons h hs, keyed => by
    simp only [viewExprs, normalItems, Expr.Rearranged.normal_eq x h keyed.1,
      ExprsRearranged.normal_eq xs hs keyed.2]

theorem PairsRearranged.normal_eq : (xs : List (Expr × Expr)) → {ys : List (Expr × Expr)} →
    PairsRearranged xs ys → KeyedItems (viewPairs xs) →
    normalItems (viewPairs xs) = normalItems (viewPairs ys)
  | [], _, .nil, _ => rfl
  | (k, x) :: xs, _, .cons h h' hs, keyed => by
    simp only [viewPairs, Keyed, KeyedItems, and_true] at keyed
    simp only [viewPairs, normalItems, normal, Expr.Rearranged.normal_eq k h keyed.1.1,
      Expr.Rearranged.normal_eq x h' keyed.1.2, PairsRearranged.normal_eq xs hs keyed.2]

theorem MembersRearranged.normal_eq : (xs : List (Text × Expr)) → {ys : List (Text × Expr)} →
    MembersRearranged xs ys → KeyedItems (viewMembers xs) →
    normalItems (viewMembers xs) = normalItems (viewMembers ys)
  | [], _, .nil, _ => rfl
  | (_, x) :: xs, _, .cons h hs, keyed => by
    simp only [viewMembers, Keyed, KeyedItems, and_true, true_and] at keyed
    simp only [viewMembers, normalItems, normal, Expr.Rearranged.normal_eq x h keyed.1,
      MembersRearranged.normal_eq xs hs keyed.2]

theorem PartsRearranged.normal_eq : (ps : List Part) → {qs : List Part} → PartsRearranged ps qs →
    KeyedItems (viewParts ps) → normalItems (viewParts ps) = normalItems (viewParts qs)
  | [], _, .nil, _ => rfl
  | .text _ :: ps, _, .text hs, keyed => by
    simp only [viewParts, normalItems, PartsRearranged.normal_eq ps hs keyed.2]
  | .placeholder p :: ps, _, .placeholder h hs, keyed => by
    simp only [viewParts, normalItems, Placeholder.Rearranged.normal_eq p h keyed.1,
      PartsRearranged.normal_eq ps hs keyed.2]

theorem Placeholder.Rearranged.normal_eq : (p : Placeholder) → {q : Placeholder} →
    p.Rearranged q → p.view.Keyed → p.view.normal = q.view.normal
  | .mk _ _ x, _, .mk perm h, keyed => by
    simp only [Placeholder.view, Keyed, KeyedEntries, and_true] at keyed
    simp only [Placeholder.view, normal, normalEntries, normal_viewTexts keyed.1 perm,
      Expr.Rearranged.normal_eq x h keyed.2]

end

theorem viewMetaMembers_eq (xs : List (String × Meta)) :
    viewMetaMembers xs = xs.map fun x => (x.1, x.2.view) := by
  induction xs with
  | nil => rfl
  | cons x xs ih => rw [viewMetaMembers, ih, List.map_cons]

mutual

theorem Meta.Rearranged.normal_eq : (a : Meta) → {b : Meta} → a.Rearranged b → a.view.Keyed →
    a.view.normal = b.view.normal
  | .null _, _, .null, _ | .boolean _ _, _, .boolean, _ | .int _ _ _, _, .int, _
  | .float _ _, _, .float, _ | .string _ _, _, .string, _ => by simp only [Meta.view]
  | .array _ xs, _, .array h, keyed => by
    simp only [Meta.view, Keyed, KeyedEntries, and_true] at keyed
    simp only [Meta.view, normal, normalEntries, MetasRearranged.normal_eq xs h keyed]
  | .object _ xs, .object _ ys, .object h perm, keyed => by
    simp only [Meta.view, Keyed, KeyedEntries, and_true] at keyed
    have perm' := perm.map fun x : String × Meta => (x.1, x.2.view)
    rw [← viewMetaMembers_eq, ← viewMetaMembers_eq] at perm'
    have values := MetaMembersRearranged.normal_eq xs h keyed.2
    rw [Meta.view, Meta.view, normal, normal, normalEntries, normalEntries,
      normal_mapping_congr keyed.1 values perm']
    rfl

theorem MetasRearranged.normal_eq : (xs : List Meta) → {ys : List Meta} → MetasRearranged xs ys →
    KeyedItems (viewMetas xs) → normalItems (viewMetas xs) = normalItems (viewMetas ys)
  | [], _, .nil, _ => rfl
  | x :: xs, _, .cons h hs, keyed => by
    simp only [viewMetas, normalItems, Meta.Rearranged.normal_eq x h keyed.1,
      MetasRearranged.normal_eq xs hs keyed.2]

theorem MetaMembersRearranged.normal_eq : (xs : List (String × Meta)) →
    {ys : List (String × Meta)} → MetaMembersRearranged xs ys → KeyedEntries (viewMetaMembers xs) →
    normalEntries (viewMetaMembers xs) = normalEntries (viewMetaMembers ys)
  | [], _, .nil, _ => rfl
  | (_, x) :: xs, _, .cons h hs, keyed => by
    simp only [viewMetaMembers, normalEntries, Meta.Rearranged.normal_eq x h keyed.1,
      MetaMembersRearranged.normal_eq xs hs keyed.2]

end

/-- What holds of values one by one holds of the mapping. -/
theorem Reordered.normal_eq {α : Type} {R : α → α → Prop} {view : α → View}
    {xs ys : List (String × α)} (h : Reordered R xs ys)
    (keyed : (mapping (xs.map fun x => (x.1, view x.2))).Keyed)
    (each : ∀ a b, R a b → (view a).Keyed → (view a).normal = (view b).normal) :
    (mapping (xs.map fun x => (x.1, view x.2))).normal =
      (mapping (ys.map fun y => (y.1, view y.2))).normal := by
  obtain ⟨zs, values, perm⟩ := h
  obtain ⟨keys, below⟩ := keyed
  refine normal_mapping_congr keys ?_ (perm.map _)
  clear keys perm
  induction values with
  | nil => rfl
  | cons first _ ih =>
    obtain ⟨key, related⟩ := first
    simp only [List.map_cons, normalEntries, key, each _ _ related below.1, ih below.2]

theorem normalItems_forall₂ {α : Type} {R : α → α → Prop} {view : α → View} {xs ys : List α}
    (h : List.Forall₂ R xs ys) (keyed : KeyedItems (xs.map view))
    (each : ∀ a b, R a b → (view a).Keyed → (view a).normal = (view b).normal) :
    normalItems (xs.map view) = normalItems (ys.map view) := by
  induction h with
  | nil => rfl
  | cons first _ ih =>
    simp only [List.map_cons, normalItems, each _ _ first keyed.1, ih keyed.2]

theorem normal_initializer {x y : Option Expr} (h : Option.Rel Expr.Rearranged x y)
    (keyed : ((x.map Expr.view).getD .null).Keyed) :
    ((x.map Expr.view).getD .null).normal = ((y.map Expr.view).getD .null).normal := by
  cases h with
  | none => rfl
  | some related => exact related.normal_eq _ keyed

theorem Decl.Rearranged.normal_eq {a b : Decl} (h : a.Rearranged b) (keyed : a.view.Keyed) :
    a.view.normal = b.view.normal := by
  simp only [Decl.view, Keyed, KeyedEntries, and_true, true_and] at keyed
  simp only [Decl.view, normal_node, normalEntries, h.type.view_eq, h.name,
    normal_initializer h.expr keyed.2]

theorem Import.Rearranged.normal_eq {a b : Import} (h : a.Rearranged b) (keyed : a.view.Keyed) :
    a.view.normal = b.view.normal := by
  simp only [Import.view, Keyed, KeyedEntries, and_true, true_and] at keyed
  simp only [Import.view, normal, normalEntries, h.uri, h.namespaceName,
    normal_viewNames keyed h.aliases]

theorem StructDef.Rearranged.normal_eq {a b : StructDef} (h : a.Rearranged b)
    (keyed : a.view.Keyed) : a.view.normal = b.view.normal := by
  simp only [StructDef.view, Keyed, KeyedEntries, and_true, true_and] at keyed
  simp only [StructDef.view, normal, normalEntries, h.name,
    normalItems_forall₂ h.members keyed fun _ _ => Decl.Rearranged.normal_eq]

theorem Command.Rearranged.normal_eq {a b : Command} (h : a.Rearranged b) (keyed : a.view.Keyed) :
    a.view.normal = b.view.normal := by
  simp only [Command.view, Keyed, KeyedEntries, and_true] at keyed
  simp only [Command.view, normal, normalEntries, PartsRearranged.normal_eq _ h.parts keyed,
    h.heredoc]

theorem Task.Rearranged.normal_eq {a b : Task} (h : a.Rearranged b) (keyed : a.view.Keyed) :
    a.view.normal = b.view.normal := by
  rw [Task.view, viewMetaMembers_eq, viewMetaMembers_eq] at keyed ⊢
  obtain ⟨-, inputs, postinputs, command, outputs, parameterMeta, runtime, metadata, -⟩ := keyed
  simp only [Task.view, viewMetaMembers_eq, normal_node, normal_list, normalEntries, h.name,
    normalItems_forall₂ h.inputs inputs fun _ _ => Decl.Rearranged.normal_eq,
    normalItems_forall₂ h.postinputs postinputs fun _ _ => Decl.Rearranged.normal_eq,
    h.command.normal_eq command,
    normalItems_forall₂ h.outputs outputs fun _ _ => Decl.Rearranged.normal_eq,
    h.parameterMeta.normal_eq parameterMeta fun a _ => Meta.Rearranged.normal_eq a,
    h.runtime.normal_eq runtime fun a _ => Expr.Rearranged.normal_eq a,
    h.metadata.normal_eq metadata fun a _ => Meta.Rearranged.normal_eq a]

theorem Call.Rearranged.normal_eq {a b : Call} (h : a.Rearranged b) (keyed : a.view.Keyed) :
    a.view.normal = b.view.normal := by
  obtain ⟨-, -, inputs, -⟩ := keyed
  have each : ∀ x y : String × Expr, x.1 = y.1 ∧ x.2.Rearranged y.2 →
      (tuple [View.name x.1, x.2.view]).Keyed →
      (tuple [View.name x.1, x.2.view]).normal = (tuple [View.name y.1, y.2.view]).normal := by
    intro x y related keyed
    simp only [normal, normalItems, related.1, related.2.normal_eq _ keyed.2.1]
  simp only [Call.view, normal_node, normal_list, normalEntries, h.callee, h.givenName,
    normalItems_forall₂ h.inputs inputs each]

mutual

theorem WorkflowNode.Rearranged.normal_eq : (a : WorkflowNode) → {b : WorkflowNode} →
    a.Rearranged b → a.view.Keyed → a.view.normal = b.view.normal
  | .decl _, _, .decl h, keyed => h.normal_eq keyed
  | .call _, _, .call h, keyed => h.normal_eq keyed
  | .scatter _ ms _ e, _, .scatter h h', keyed => by
    obtain ⟨body, -, value, -⟩ := keyed
    simp only [WorkflowNode.view, normal_node, normal_list, normalEntries,
      BodyRearranged.normal_eq ms h body, Expr.Rearranged.normal_eq e h' value]
  | .conditional _ ms e, _, .conditional h h', keyed => by
    obtain ⟨body, value, -⟩ := keyed
    simp only [WorkflowNode.view, normal_node, normal_list, normalEntries,
      BodyRearranged.normal_eq ms h body, Expr.Rearranged.normal_eq e h' value]

theorem BodyRearranged.normal_eq : (ms : List WorkflowNode) → {ns : List WorkflowNode} →
    BodyRearranged ms ns → KeyedItems (viewNodes ms) →
    normalItems (viewNodes ms) = normalItems (viewNodes ns)
  | [], _, .nil, _ => rfl
  | m :: ms, _, .cons h hs, keyed => by
    simp only [viewNodes, normalItems, WorkflowNode.Rearranged.normal_eq m h keyed.1,
      BodyRearranged.normal_eq ms hs keyed.2]

end

theorem Workflow.Rearranged.normal_eq {a b : Workflow} (h : a.Rearranged b)
    (keyed : a.view.Keyed) : a.view.normal = b.view.normal := by
  rw [Workflow.view, viewMetaMembers_eq, viewMetaMembers_eq] at keyed ⊢
  obtain ⟨-, inputs, body, outputs, parameterMeta, metadata, -⟩ := keyed
  simp only [Workflow.view, viewMetaMembers_eq, normal_node, normal_list, normalEntries, h.name,
    normalItems_forall₂ h.inputs inputs fun _ _ => Decl.Rearranged.normal_eq,
    BodyRearranged.normal_eq _ h.body body,
    normalItems_forall₂ h.outputs outputs fun _ _ => Decl.Rearranged.normal_eq,
    h.parameterMeta.normal_eq parameterMeta fun a _ => Meta.Rearranged.normal_eq a,
    h.metadata.normal_eq metadata fun a _ => Meta.Rearranged.normal_eq a]

theorem Element.Rearranged.normal_eq {a b : Element} (h : a.Rearranged b)
    (keyed : a.view.Keyed) : a.view.normal = b.view.normal := by
  cases h with
  | importDoc h | structDef h | task h | workflow h => exact h.normal_eq keyed

theorem Document.Rearranged.normal_eq {a b : Document} (h : a.Rearranged b)
    (keyed : a.view.Keyed) : a.view.normal = b.view.normal := by
  obtain ⟨-, body, -⟩ := keyed
  simp only [Document.view, Version.view, normal_node, normal_list, normalEntries, h.version,
    normalItems_forall₂ h.body body fun _ _ => Element.Rearranged.normal_eq]

/-- Rearranging a node does not change the normal form of what it holds. -/
theorem Node.Rearranged.normal_eq {a b : Node} (h : a.Rearranged b) (keyed : a.view.Keyed) :
    a.view.normal = b.view.normal := by
  cases h with
  | version same => simp only [Node.view, Version.view, same]
  | type h => simp only [Node.view, h.view_eq]
  | expr h | placeholder h | metaValue h => exact h.normal_eq _ keyed
  | scatter body e => exact WorkflowNode.Rearranged.normal_eq _ (.scatter body e) keyed
  | conditional body e => exact WorkflowNode.Rearranged.normal_eq _ (.conditional body e) keyed
  | document h | importDoc h | structDef h | task h | command h | workflow h | call h | decl h =>
    exact h.normal_eq keyed

end Views

/-! ## Children that belong together

From the normal form of a node the normal forms of its children can be read off, field by field.
`ordered_match` and `keyed_match` do so for a list and for a mapping; the lemmas behind them are
about the lists that are viewed by a recursion of their own. -/

/-- Children of a node that are in one of its fields: in order, or as the values of a mapping. -/
inductive ChildGroup where
  | ordered (nodes : List Node)
  | keyed (entries : List (String × Node))

namespace ChildGroup

/-- The children of a group. -/
def nodes : ChildGroup → List Node
  | .ordered ns => ns
  | .keyed entries => entries.map Prod.snd

/-- The children of two groups are the same one by one: by key in a mapping, in order elsewhere. -/
def Match : ChildGroup → ChildGroup → Prop
  | .ordered ms, .ordered ns => List.Forall₂ (fun m n => m.same n = true) ms ns
  | .keyed xs, .keyed ys => Reordered (fun m n => m.same n = true) xs ys
  | _, _ => False

/-- The values of a meta mapping. -/
def ofMetas (members : List (String × Meta)) : ChildGroup :=
  .keyed (members.map fun x => (x.1, .metaValue x.2))

@[simp] theorem nodes_ordered (ns : List Node) : (ordered ns).nodes = ns := rfl

@[simp] theorem nodes_keyed (entries : List (String × Node)) :
    (keyed entries).nodes = entries.map Prod.snd := rfl

/-- The nodes of a meta mapping are its values. -/
@[simp] theorem nodes_ofMetas (members : List (String × Meta)) :
    (ofMetas members).nodes = metaNodes members := by
  simp [ofMetas, metaNodes]

end ChildGroup

/-- The children of a node by the fields they are in. -/
def Node.groups : Node → List ChildGroup
  | .task t =>
    [.ordered (declNodes t.inputs), .ordered (declNodes t.postinputs),
     .ordered [.command t.command], .ordered (declNodes t.outputs),
     .keyed (t.runtime.map fun x => (x.1, .expr x.2)), .ofMetas t.metadata,
     .ofMetas t.parameterMeta]
  | .workflow w =>
    [.ordered (declNodes w.inputs), .ordered (w.body.map WorkflowNode.node),
     .ordered (declNodes w.outputs), .ofMetas w.metadata, .ofMetas w.parameterMeta]
  | .metaValue (.object _ members) => [.ofMetas members]
  | n => [.ordered n.children]

/-- The groups of a node hold its children in order. -/
theorem Node.groups_nodes (n : Node) : n.groups.flatMap ChildGroup.nodes = n.children := by
  cases n with
  | task t => simp [groups, children, Task.children, memberNodes]
  | workflow w => simp [groups, children, Workflow.children]
  | metaValue m => cases m <;> simp [groups, children, Meta.children]
  | _ => simp [groups]

section Matching

open View

/-- Lists with one normal form have items with the same normal forms, one by one. -/
theorem normalItems_eq_iff {xs ys : List View} : normalItems xs = normalItems ys ↔
    List.Forall₂ (fun x y => x.normal = y.normal) xs ys := by
  rw [View.normalItems_eq, View.normalItems_eq, ← List.forall₂_eq_eq_eq, List.forall₂_map_left_iff,
    List.forall₂_map_right_iff]

/-- Items with the same normal forms are the same nodes one by one. -/
theorem ordered_match {α : Type} {view : α → View} {node : α → Node} {xs ys : List α}
    (views : ∀ x, (node x).view = view x)
    (h : normalItems (xs.map view) = normalItems (ys.map view)) :
    ChildGroup.Match (.ordered (xs.map node)) (.ordered (ys.map node)) := by
  rw [normalItems_eq_iff, List.forall₂_map_left_iff, List.forall₂_map_right_iff] at h
  show List.Forall₂ _ _ _
  rw [List.forall₂_map_left_iff, List.forall₂_map_right_iff]
  refine h.imp fun x y normal => same_iff.2 ?_
  rwa [views, views]

/-- Mappings with the same normal form have the same nodes under each key. -/
theorem keyed_match {α : Type} {view : α → View} {node : α → Node} {xs ys : List (String × α)}
    (views : ∀ x, (node x).view = view x)
    (h : (mapping (xs.map fun x => (x.1, view x.2))).normal =
      (mapping (ys.map fun y => (y.1, view y.2))).normal) :
    ChildGroup.Match (.keyed (xs.map fun x => (x.1, node x.2)))
      (.keyed (ys.map fun y => (y.1, node y.2))) := by
  rw [normal, normal, mapping.injEq] at h
  have perm : (normalEntries (xs.map fun x => (x.1, view x.2))).Perm
      (normalEntries (ys.map fun y => (y.1, view y.2))) :=
    (List.mergeSort_perm _ entryLe).symm.trans (h ▸ List.mergeSort_perm _ entryLe)
  rw [normalEntries_eq, normalEntries_eq, List.map_map, List.map_map] at perm
  -- the order of the one list is carried over to the other
  have own : List.Forall₂ (fun u (y : String × α) => u = (y.1, (view y.2).normal))
      (ys.map fun y => (y.1, (view y.2).normal)) ys := by
    rw [List.forall₂_map_left_iff]
    exact List.forall₂_same.2 fun _ _ => rfl
  obtain ⟨zs, values, perm⟩ := List.perm_comp_forall₂ perm own
  refine ⟨zs.map fun z => (z.1, node z.2), ?_, perm.map _⟩
  rw [List.forall₂_map_left_iff] at values ⊢
  rw [List.forall₂_map_right_iff]
  refine values.imp fun x z same => ?_
  obtain ⟨key, normal⟩ := Prod.mk.inj same
  exact ⟨key, same_iff.2 (by rwa [views, views])⟩

theorem viewExprs_eq (xs : List Expr) : viewExprs xs = xs.map Expr.view := by
  induction xs with
  | nil => rfl
  | cons x xs ih => rw [viewExprs, ih, List.map_cons]

theorem viewMetas_eq (xs : List Meta) : viewMetas xs = xs.map Meta.view := by
  induction xs with
  | nil => rfl
  | cons x xs ih => rw [viewMetas, ih, List.map_cons]

theorem WorkflowNode.node_view (n : WorkflowNode) : n.node.view = n.view := by
  cases n with
  | decl d | call c => simp only [node, Node.view, view]
  | scatter r body item e | conditional r body e => rfl

theorem Element.node_view (e : Element) : e.node.view = e.view := by cases e <;> rfl

/-- A placeholder is not a text, so the placeholders among some parts match on their own. -/
theorem parts_match : (ps qs : List Part) →
    normalItems (viewParts ps) = normalItems (viewParts qs) →
    ChildGroup.Match (.ordered (partNodes ps)) (.ordered (partNodes qs))
  | [], [], _ => List.Forall₂.nil
  | .text _ :: ps, .text _ :: qs, h => by
    simp only [viewParts, normalItems, List.cons.injEq] at h
    exact parts_match ps qs h.2
  | .placeholder p :: ps, .placeholder q :: qs, h => by
    simp only [viewParts, normalItems, List.cons.injEq] at h
    exact List.Forall₂.cons (same_iff.2 h.1) (parts_match ps qs h.2)
  | .text _ :: _, .placeholder (.mk _ _ _) :: _, h
  | .placeholder (.mk _ _ _) :: _, .text _ :: _, h => by
    simp [viewParts, normalItems, normal, Placeholder.view] at h
  | [], .text _ :: _, h | [], .placeholder _ :: _, h | .text _ :: _, [], h
  | .placeholder _ :: _, [], h => by
    simp [viewParts, normalItems] at h

/-- A map literal has a key and a value for each of its items, and both match. -/
theorem pairs_match : (xs ys : List (Expr × Expr)) →
    normalItems (viewPairs xs) = normalItems (viewPairs ys) →
    List.Forall₂ (fun m n : Node => m.same n = true)
      (xs.flatMap fun x => [.expr x.1, .expr x.2]) (ys.flatMap fun y => [.expr y.1, .expr y.2])
  | [], [], _ => .nil
  | (k, x) :: xs, (l, y) :: ys, h => by
    simp only [viewPairs, normalItems, normal, List.cons.injEq, tuple.injEq, and_true] at h
    exact .cons (same_iff.2 h.1.1) (.cons (same_iff.2 h.1.2) (pairs_match xs ys h.2))
  | [], _ :: _, h | _ :: _, [], h => by simp [viewPairs, normalItems] at h

/-- The keys of an object literal are no nodes, so its values match on their own. -/
theorem members_match : (xs ys : List (Text × Expr)) →
    normalItems (viewMembers xs) = normalItems (viewMembers ys) →
    ChildGroup.Match (.ordered (memberNodes xs)) (.ordered (memberNodes ys))
  | [], [], _ => List.Forall₂.nil
  | (_, x) :: xs, (_, y) :: ys, h => by
    simp only [viewMembers, normalItems, normal, List.cons.injEq, tuple.injEq, and_true] at h
    exact List.Forall₂.cons (same_iff.2 h.1.2) (members_match xs ys h.2)
  | [], _ :: _, h | _ :: _, [], h => by simp [viewMembers, normalItems] at h

theorem Ty.parameters_match {a b : Ty} (h : a.view.normal = b.view.normal) :
    ChildGroup.Match (.ordered (a.parameters.map .type)) (.ordered (b.parameters.map .type)) := by
  show List.Forall₂ _ _ _
  cases a <;> cases b <;>
    simp only [view, label, Atom.label, normal, normalEntries, normalItems, node.injEq,
      Label.mk.injEq, String.reduceEq, reduceCtorEq, List.cons.injEq, Prod.mk.injEq, tuple.injEq,
      and_true, true_and, and_false, false_and] at h
  case atom.atom | struct.struct => exact .nil
  case optional.optional => exact .cons (same_iff.2 h) .nil
  case array.array => exact .cons (same_iff.2 h.1) .nil
  case map.map | pair.pair => exact .cons (same_iff.2 h.1) (.cons (same_iff.2 h.2) .nil)

theorem Expr.children_match {a b : Expr} (h : a.view.normal = b.view.normal) :
    ChildGroup.Match (.ordered a.children) (.ordered b.children) := by
  show List.Forall₂ _ _ _
  cases a <;> cases b <;>
    simp only [Expr.view, normal_node, normal_list, normalEntries, node.injEq, Label.mk.injEq,
      String.reduceEq, List.cons.injEq, Prod.mk.injEq, list.injEq, and_true, true_and, and_false,
      false_and] at h
  case boolean.boolean | int.int | float.float | null.null | ident.ident => exact .nil
  case string.string => exact parts_match _ _ h
  case array.array =>
    rw [viewExprs_eq, viewExprs_eq] at h
    exact ordered_match (fun _ => rfl) h
  case pair.pair | index.index =>
    exact .cons (same_iff.2 h.1) (.cons (same_iff.2 h.2) .nil)
  case map.map => exact pairs_match _ _ h
  case struct.struct => exact members_match _ _ h.1
  case ifThenElse.ifThenElse =>
    exact .cons (same_iff.2 h.1) (.cons (same_iff.2 h.2.1) (.cons (same_iff.2 h.2.2) .nil))
  case get.get => exact .cons (same_iff.2 h.1) .nil
  case unary.unary => exact .cons (same_iff.2 h.2) .nil
  case binary.binary => exact .cons (same_iff.2 h.2.1) (.cons (same_iff.2 h.2.2) .nil)
  case apply.apply =>
    rw [viewExprs_eq, viewExprs_eq] at h
    exact ordered_match (fun _ => rfl) h.2

theorem metas_match {xs ys : List (String × Meta)}
    (h : (mapping (viewMetaMembers xs)).normal = (mapping (viewMetaMembers ys)).normal) :
    ChildGroup.Match (.ofMetas xs) (.ofMetas ys) := by
  rw [viewMetaMembers_eq, viewMetaMembers_eq] at h
  exact keyed_match (fun _ => rfl) h

theorem Meta.groups_match {a b : Meta} (h : a.view.normal = b.view.normal) :
    List.Forall₂ ChildGroup.Match (Node.metaValue a).groups (Node.metaValue b).groups := by
  cases a <;> cases b <;>
    simp only [Meta.view, normal_node, normal_list, normalEntries, node.injEq, Label.mk.injEq,
      String.reduceEq, List.cons.injEq, Prod.mk.injEq, list.injEq, reduceCtorEq, and_true, true_and,
      and_false, false_and] at h
  case null.null | boolean.boolean | int.int | float.float | string.string =>
    exact .cons .nil .nil
  case array.array =>
    rw [viewMetas_eq, viewMetas_eq] at h
    exact .cons (ordered_match (fun _ => rfl) h) .nil
  case object.object => exact .cons (metas_match h) .nil

theorem decls_match {xs ys : List Decl}
    (h : normalItems (xs.map Decl.view) = normalItems (ys.map Decl.view)) :
    ChildGroup.Match (.ordered (declNodes xs)) (.ordered (declNodes ys)) :=
  ordered_match (fun _ => rfl) h

theorem body_match {ms ns : List WorkflowNode}
    (h : normalItems (viewNodes ms) = normalItems (viewNodes ns)) :
    ChildGroup.Match (.ordered (ms.map WorkflowNode.node))
      (.ordered (ns.map WorkflowNode.node)) := by
  rw [viewNodes_eq, viewNodes_eq] at h
  exact ordered_match WorkflowNode.node_view h

theorem Expr.view_normal (e : Expr) : ∃ fields, e.view.normal = .node e.label fields := by
  cases e <;> exact ⟨_, by rw [Expr.view, normal_node]; rfl⟩

theorem Decl.children_match {a b : Decl} (h : a.view.normal = b.view.normal) :
    ChildGroup.Match (.ordered a.children) (.ordered b.children) := by
  obtain ⟨_, _, _, x⟩ := a
  obtain ⟨_, _, _, y⟩ := b
  simp only [Decl.view, normal_node, normalEntries, node.injEq, List.cons.injEq, Prod.mk.injEq,
    and_true, true_and] at h
  refine List.Forall₂.cons (same_iff.2 h.1) ?_
  -- no expression is taken for a missing one
  have present : ∀ e : Expr, e.view.normal ≠ .null := by
    intro e missing
    obtain ⟨fields, eq⟩ := e.view_normal
    rw [missing] at eq
    cases eq
  cases x with
  | none =>
    cases y with
    | none => exact .nil
    | some y => exact absurd h.2.2.symm (present y)
  | some x =>
    cases y with
    | none => exact absurd h.2.2 (present x)
    | some y => exact .cons (same_iff.2 h.2.2) .nil

theorem Task.groups_match {a b : Task} (h : a.view.normal = b.view.normal) :
    List.Forall₂ ChildGroup.Match (Node.task a).groups (Node.task b).groups := by
  simp only [Task.view, normal_node, normal_list, normalEntries, node.injEq, List.cons.injEq,
    Prod.mk.injEq, list.injEq, and_true, true_and] at h
  obtain ⟨-, inputs, postinputs, command, outputs, parameterMeta, runtime, metadata⟩ := h
  exact .cons (decls_match inputs) (.cons (decls_match postinputs)
    (.cons (.cons (same_iff.2 command) .nil) (.cons (decls_match outputs)
      (.cons (keyed_match (fun _ => rfl) runtime)
        (.cons (metas_match metadata) (.cons (metas_match parameterMeta) .nil))))))

theorem Workflow.groups_match {a b : Workflow} (h : a.view.normal = b.view.normal) :
    List.Forall₂ ChildGroup.Match (Node.workflow a).groups (Node.workflow b).groups := by
  simp only [Workflow.view, normal_node, normal_list, normalEntries, node.injEq, List.cons.injEq,
    Prod.mk.injEq, list.injEq, and_true, true_and] at h
  obtain ⟨-, inputs, body, outputs, parameterMeta, metadata⟩ := h
  exact .cons (decls_match inputs) (.cons (body_match body) (.cons (decls_match outputs)
    (.cons (metas_match metadata) (.cons (metas_match parameterMeta) .nil))))

theorem Node.view_normal (n : Node) : ∃ fields, n.view.normal = .node n.label fields := by
  cases n with
  | expr e => exact e.view_normal
  | type t => cases t <;> exact ⟨_, by rw [view, Ty.view, normal_node]; rfl⟩
  | metaValue m => cases m <;> exact ⟨_, by rw [view, Meta.view, normal_node]; rfl⟩
  | placeholder p =>
    obtain ⟨r, options, e⟩ := p
    exact ⟨_, by rw [view, Placeholder.view, normal_node]; rfl⟩
  | scatter r body item e => exact ⟨_, by rw [view, WorkflowNode.view, normal_node]; rfl⟩
  | conditional r body e => exact ⟨_, by rw [view, WorkflowNode.view, normal_node]; rfl⟩
  | _ => exact ⟨_, normal_node _ _⟩

/-- Nodes that are the same are of one kind. -/
theorem Node.label_eq_of_same {a b : Node} (h : a.same b = true) : a.label = b.label := by
  obtain ⟨fields, eq⟩ := a.view_normal
  obtain ⟨fields', eq'⟩ := b.view_normal
  rw [same, same_iff, eq, eq'] at h
  exact (node.inj h).1

theorem Ty.label_family (t : Ty) : t.label.family = "Type" := by cases t <;> rfl

theorem Meta.label_family (m : Meta) : m.label.family = "Meta" := by cases m <;> rfl

theorem Expr.label_family (e : Expr) : e.label.family = "Expr" := by cases e <;> rfl

/-- No expression is of the kind of placeholders, so the two kinds of children cannot be mistaken
for each other. -/
theorem Expr.label_ne_placeholder (e : Expr) : e.label ≠ Placeholder.label := by
  cases e <;> simp [label, Placeholder.label]

/-- What holds of any two nodes that are built by one constructor holds of any two of one label. -/
theorem Node.label_cases {P : Node → Node → Prop}
    (document : ∀ a b, P (.document a) (.document b))
    (version : ∀ a b, P (.version a) (.version b))
    (importDoc : ∀ a b, P (.importDoc a) (.importDoc b))
    (structDef : ∀ a b, P (.structDef a) (.structDef b))
    (task : ∀ a b, P (.task a) (.task b))
    (command : ∀ a b, P (.command a) (.command b))
    (workflow : ∀ a b, P (.workflow a) (.workflow b))
    (call : ∀ a b, P (.call a) (.call b))
    (scatter : ∀ r ms x e s ns y f, P (.scatter r ms x e) (.scatter s ns y f))
    (conditional : ∀ r ms e s ns f, P (.conditional r ms e) (.conditional s ns f))
    (decl : ∀ a b, P (.decl a) (.decl b))
    (type : ∀ a b, P (.type a) (.type b))
    (expr : ∀ a b, P (.expr a) (.expr b))
    (placeholder : ∀ a b, P (.placeholder a) (.placeholder b))
    (metaValue : ∀ a b, P (.metaValue a) (.metaValue b))
    {a b : Node} (h : a.label = b.label) : P a b := by
  have family := congrArg Label.family h
  cases a <;> cases b <;>
    first
    | apply_assumption
    | (simp [label, Ty.label_family, Meta.label_family, Expr.label_family,
        Placeholder.label] at family
       done)
    | (simp [label] at h; done)
    | exact absurd h (Expr.label_ne_placeholder _)
    | exact absurd h.symm (Expr.label_ne_placeholder _)

/-- The children of nodes that are the same match. -/
theorem Node.groups_match {a b : Node} (h : a.same b = true) :
    List.Forall₂ ChildGroup.Match a.groups b.groups := by
  have same := same_iff.1 h
  -- same nodes have the same label, so only pairs of one constructor remain
  revert same
  refine Node.label_cases (P := fun a b => a.view.normal = b.view.normal →
    List.Forall₂ ChildGroup.Match a.groups b.groups)
    ?document ?version ?importDoc ?structDef ?task ?command ?workflow ?call ?scatter ?conditional
    ?decl ?type ?expr ?placeholder ?metaValue (label_eq_of_same h)
  case document =>
    intro a b same
    simp only [view, Document.view, normal_node, normal_list, normalEntries, node.injEq,
      List.cons.injEq, Prod.mk.injEq, list.injEq, and_true, true_and] at same
    have body := ordered_match Element.node_view same.2
    exact .cons (List.Forall₂.cons (same_iff.2 same.1) body) .nil
  case version | importDoc => exact fun _ _ _ => .cons List.Forall₂.nil .nil
  case structDef =>
    intro a b same
    simp only [view, StructDef.view, normal_node, normal_list, normalEntries, node.injEq,
      List.cons.injEq, Prod.mk.injEq, list.injEq, and_true, true_and] at same
    exact .cons (decls_match same.2) .nil
  case task => exact fun _ _ same => Task.groups_match same
  case command =>
    intro a b same
    simp only [view, Command.view, normal_node, normal_list, normalEntries, node.injEq,
      List.cons.injEq, Prod.mk.injEq, list.injEq, and_true, true_and] at same
    exact .cons (parts_match _ _ same.1) .nil
  case workflow => exact fun _ _ same => Workflow.groups_match same
  case call =>
    intro a b same
    simp only [view, Call.view, normal_node, normal_list, normalEntries, node.injEq,
      List.cons.injEq, Prod.mk.injEq, list.injEq, and_true, true_and] at same
    have inputs := normalItems_eq_iff.1 same.2.2
    rw [List.forall₂_map_left_iff, List.forall₂_map_right_iff] at inputs
    refine .cons ?_ .nil
    show List.Forall₂ _ (memberNodes a.inputs) (memberNodes b.inputs)
    rw [memberNodes, memberNodes, List.forall₂_map_left_iff, List.forall₂_map_right_iff]
    refine inputs.imp fun x y eq => same_iff.2 ?_
    simp only [normal, normalItems, tuple.injEq, List.cons.injEq, and_true] at eq
    exact eq.2
  case scatter =>
    intro r ms x e s ns y f same
    simp only [view, WorkflowNode.view, normal_node, normal_list, normalEntries, node.injEq,
      List.cons.injEq, Prod.mk.injEq, list.injEq, and_true, true_and] at same
    exact .cons (List.Forall₂.cons (same_iff.2 same.2.2) (body_match same.1)) .nil
  case conditional =>
    intro r ms e s ns f same
    simp only [view, WorkflowNode.view, normal_node, normal_list, normalEntries, node.injEq,
      List.cons.injEq, Prod.mk.injEq, list.injEq, and_true, true_and] at same
    exact .cons (List.Forall₂.cons (same_iff.2 same.2) (body_match same.1)) .nil
  case decl => exact fun _ _ same => .cons (Decl.children_match same) .nil
  case type => exact fun _ _ same => .cons (Ty.parameters_match same) .nil
  case expr => exact fun _ _ same => .cons (Expr.children_match same) .nil
  case placeholder =>
    rintro ⟨r, options, e⟩ ⟨s, options', f⟩ same
    simp only [view, Placeholder.view, normal_node, normalEntries, node.injEq,
      List.cons.injEq, Prod.mk.injEq, and_true, true_and] at same
    exact .cons (List.Forall₂.cons (same_iff.2 same.2) .nil) .nil
  case metaValue => exact fun _ _ same => Meta.groups_match same

end Matching

/-! ## Sameness -/

/-- Sameness is an equivalence. Where no mapping has a key twice, it is the comparison of the fields
part by part, and rearranging nodes changes nothing about it. Nodes that are the same are of one
kind, and their children match. -/
theorem Node.same_laws :
    Equivalence (fun a b : Node => a.same b = true) ∧
    (∀ a b : Node, a.view.Keyed → b.view.Keyed → (a.same b = true ↔ a.view.Agrees b.view)) ∧
    (∀ a a' b b' : Node, a.view.Keyed → b.view.Keyed → a.Rearranged a' → b.Rearranged b' →
      a'.same b' = a.same b) ∧
    (∀ n : Node, n.groups.flatMap ChildGroup.nodes = n.children) ∧
    ∀ a b : Node, a.same b = true →
      a.label = b.label ∧ List.Forall₂ ChildGroup.Match a.groups b.groups := by
  refine ⟨⟨fun a => ?_, fun {a b} h => ?_, fun {a b c} h h' => ?_⟩, fun a b => View.same_iff_agrees,
    fun a a' b b' ka kb ha hb => ?_, groups_nodes,
    fun a b h => ⟨label_eq_of_same h, groups_match h⟩⟩
  · exact View.same_iff.2 rfl
  · exact View.same_iff.2 (View.same_iff.1 h).symm
  · exact View.same_iff.2 ((View.same_iff.1 h).trans (View.same_iff.1 h'))
  · rw [same, same, View.same, View.same, ha.normal_eq ka, hb.normal_eq kb]

/-- Two meta objects that are the same although their members are written in other orders, at other
positions, and a number in them in octal or decimal digits. -/
theorem Node.same_laws_reordered :
    let a : Node := .metaValue
      (.object ⟨0, 20⟩ [("x", .int ⟨5, 8⟩ 8 .octal), ("y", .null ⟨13, 17⟩)])
    let b : Node := .metaValue
      (.object ⟨7, 25⟩ [("y", .null ⟨9, 13⟩), ("x", .int ⟨18, 19⟩ 8 .decimal)])
    a.Rearranged b ∧ a.same b = true ∧ a.view.Agrees b.view ∧
      List.Forall₂ ChildGroup.Match a.groups b.groups := by
  intro a b
  have keyed : a.view.Keyed := by
    simp [a, view, Meta.view, viewMetaMembers, View.Keyed, View.KeyedEntries]
  have keyed' : b.view.Keyed := by
    simp [b, view, Meta.view, viewMetaMembers, View.Keyed, View.KeyedEntries]
  have self : a.Rearranged a := .metaValue (.object (.cons .int (.cons .null .nil)) (.refl _))
  have other : a.Rearranged b :=
    .metaValue (.object (.cons .int (.cons .null .nil)) (.swap _ _ _))
  obtain ⟨equivalence, agrees, invariant, -, matching⟩ := Node.same_laws
  have same : a.same b = true :=
    (invariant a a a b keyed keyed self other).trans (equivalence.refl a)
  exact ⟨other, same, (agrees a b keyed keyed').1 same, (matching a b same).2⟩

end Wdl
