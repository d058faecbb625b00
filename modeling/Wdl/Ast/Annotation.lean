import Wdl.Ast.Attribute
import Wdl.Ast.Size
import Wdl.Datum

/-!
# Wdl.Ast.Annotation -- attributes that are attached to nodes

Plain data can be attached to any node of a document, each under a name that the node does not have
yet. From then on it counts as a field behind the others: nodes are described and compared with
what is attached to them and to the nodes below them. Nodes are told apart by their paths, since
equal ones can differ in what is attached to them.
-/

namespace Wdl

/-- Plain data under a name, attached to the node that a path leads to. -/
structure Annotation where
  path : List Nat
  name : String
  value : Datum

/-- What is attached to a node and the nodes below it, in the order of attaching. -/
abbrev Annotations := List Annotation

/-! ## Views of plain data -/

mutual

/-- The view of plain data. -/
def Datum.view : Datum → View
  | .null => .null
  | .boolean value => .boolean value
  | .int value => .int value
  | .float value => .float value
  | .text value => .name value
  | .list items => .list (viewItems items)
  | .object members => .mapping (viewObject members)

/-- The views of the items of a list. -/
def viewItems : List Datum → List View
  | [] => []
  | x :: rest => x.view :: viewItems rest

/-- The views of the members of an object. -/
def viewObject : List (String × Datum) → List (String × View)
  | [] => []
  | (key, x) :: rest => (key, x.view) :: viewObject rest

end

mutual

/-- Plain data in which numbers of one value are one: truth values are zero and one, and whole
floating-point numbers are integers. -/
def Datum.numeric : Datum → Datum
  | .boolean value => .int (if value then 1 else 0)
  | .float value => (value.whole?.map Datum.int).getD (.float value)
  | .list items => .list (numericItems items)
  | .object members => .object (numericMembers members)
  | x => x

/-- The items of a list with such numbers. -/
def numericItems : List Datum → List Datum
  | [] => []
  | x :: rest => x.numeric :: numericItems rest

/-- The members of an object with such numbers. -/
def numericMembers : List (String × Datum) → List (String × Datum)
  | [] => []
  | (key, x) :: rest => (key, x.numeric) :: numericMembers rest

end

/-! ## Attaching -/

namespace Annotations

/-- What is attached to the node itself. -/
def own (as : Annotations) : List (String × Datum) :=
  as.filterMap fun a => if a.path = [] then some (a.name, a.value) else none

/-- What is attached to the child at a position and below it. -/
def below (as : Annotations) (i : Nat) : Annotations :=
  as.filterMap fun a =>
    match a.path with
    | [] => none
    | j :: path => if j = i then some { a with path } else none

/-- What is attached to the node that a path leads to, and below it. -/
def under (as : Annotations) : List Nat → Annotations
  | [] => as
  | i :: path => (as.below i).under path

/-- What is attached under a name to the node itself. -/
def value? (as : Annotations) (name : String) : Option Datum := as.own.lookup name

/-- Attaches plain data to the node at a path. -/
def attach (as : Annotations) (path : List Nat) (n : Node) (name : String) (value : Datum) :
    Except AttributeFault Annotations :=
  if n.attributes.contains name || ((as.under path).value? name).isSome then
    .error (.readOnly n.label.name name)
  else if n.computedNames.contains name then .error (.computed n.label.name name)
  else .ok (as ++ [⟨path, name, value⟩])

/-- The annotations in an order and with numbers that tell no difference that comparing ignores. -/
def comparable (as : Annotations) : Annotations :=
  (as.map fun a => { a with value := a.value.numeric }).mergeSort fun a b => ¬ b.name < a.name

end Annotations

/-! ## Views with what is attached -/

namespace View

mutual

/-- Puts views in place of the nodes in a value, from the first to the last. Gives back those that
are left over. -/
def place : View → List View → View × List View
  | .node _ _, v :: vs => (v, vs)
  | .list items, vs =>
    let (items, vs) := placeItems items vs
    (.list items, vs)
  | .tuple items, vs =>
    let (items, vs) := placeItems items vs
    (.tuple items, vs)
  | .mapping entries, vs =>
    let (entries, vs) := placeEntries entries vs
    (.mapping entries, vs)
  | value, vs => (value, vs)

/-- Puts views in place of the nodes in values. -/
def placeItems : List View → List View → List View × List View
  | [], vs => ([], vs)
  | x :: rest, vs =>
    let (x, vs) := x.place vs
    let (rest, vs) := placeItems rest vs
    (x :: rest, vs)

/-- Puts views in place of the nodes in named values. -/
def placeEntries : List (String × View) → List View → List (String × View) × List View
  | [], vs => ([], vs)
  | (key, x) :: rest, vs =>
    let (x, vs) := x.place vs
    let (rest, vs) := placeEntries rest vs
    ((key, x) :: rest, vs)

end

/-- The view of a node with other views of the nodes right below it, and with further fields. -/
def extend (nodes : List View) (more : List (String × View)) : View → View
  | .node label fields => .node label ((placeEntries fields nodes).1 ++ more)
  | value => value

end View

namespace Node

/-- The children whose fields stand behind those of all later children: how many others come
before them, and how many they are. -/
def lateChildren : Node → Nat × Nat
  | .scatter _ _ _ _ | .conditional _ _ _ => (0, 1)
  | .task t =>
    (t.inputs.length + t.postinputs.length + 1 + t.outputs.length,
      t.runtime.length + t.metadata.length)
  | .workflow w => (w.inputs.length + w.body.length + w.outputs.length, w.metadata.length)
  | _ => (0, 0)

/-- Brings what is in the order of a node's children into that of its fields. -/
def inFieldOrder {α : Type} (n : Node) (xs : List α) : List α :=
  let (before, late) := n.lateChildren
  let rest := xs.drop before
  xs.take before ++ rest.drop late ++ rest.take late

/-- What a node holds, with what is attached to it and the nodes below it. -/
def viewWith (as : Annotations) (n : Node) : View :=
  if as.isEmpty then n.view
  else
    let nodes := n.children.attach.mapIdx fun i child => viewWith (as.below i) child.1
    n.view.extend (n.inFieldOrder nodes) (viewObject as.own)
termination_by sizeOf n
decreasing_by exact Node.sizeOf_child child.2

@[simp] theorem viewWith_nil (n : Node) : n.viewWith [] = n.view := by simp [viewWith]

/-- The text that describes a node with what is attached. -/
def describeWith (as : Annotations) (n : Node) : String := (n.viewWith as).describe

theorem describeWith_nil (n : Node) : n.describeWith [] = n.describe := by
  simp [describeWith, describe]

/-- Whether two nodes are of one kind and hold the same, what is attached included. -/
def sameWith (as : Annotations) (a : Node) (bs : Annotations) (b : Node) : Bool :=
  (a.viewWith as.comparable).same (b.viewWith bs.comparable)

theorem sameWith_nil (a b : Node) : a.sameWith [] [] b = a.same b := by
  simp [sameWith, same, Annotations.comparable]

end Node

end Wdl
