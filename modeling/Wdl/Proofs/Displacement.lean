import Wdl.Ast.Node
import Wdl.Proofs.Relocation
import Wdl.Surface.Document

/-!
# Wdl.Proofs.Displacement -- the same document at another place

Positions can be moved throughout the surface form of a document and throughout its tree. Each type
has a function `move` that takes a function on positions and applies it to every range, and to
nothing else. Three things are shown of it, by one lemma for each type and each list of them:

* `move_back`: moving there and back changes nothing (`Surface.Document.move_back`). With it, a
  result on moved documents is one in both directions.
* `view_move`: what a node holds does not depend on where it is (`Node.view_move`).
* `range_move` and `children_move`: the range of a moved node is the moved range, and its children
  are the moved children, so a path leads to the moved node of the one it led to before
  (`Node.descendant?_move`).

A document is the exception. Its range is that of its whole text, so `Document.move` is given the
text in which the moved document stands, and `Node.move` leaves a document in its own. No document
is below another node (`Node.document_notMem_children`), so this concerns only the root.
-/

namespace Wdl

/-- A range that is moved there and back is where it was. -/
theorem Range.move_back {f g : Nat → Nat} (back : ∀ n, g (f n) = n) (r : Range) :
    (r.move f).move g = r := by
  rw [move, move, back, back]

/-! ## Surface forms

Nested types come with a function for their lists, as in their definitions. The lemmas
`moveTypes_eq` and the like say that these are maps, and are used wherever the recursion does not
matter. -/

namespace Surface

/-- The accessor at another place. -/
def Accessor.move (f : Nat → Nat) : Accessor → Accessor
  | .index r i => .index (r.move f) (i.move f)
  | .member r name => .member (r.move f) (name.move f)

/-- The part at another place. -/
def Part.move (f : Nat → Nat) : Part → Part
  | .text r raw => .text (r.move f) raw
  | .placeholder p => .placeholder (p.move f)

mutual

/-- The type at another place. -/
def TypeExpr.move (f : Nat → Nat) : TypeExpr → TypeExpr
  | .mk r name parameters quantifier =>
    .mk (r.move f) (name.move f) (moveTypes f parameters) (quantifier.map fun q => (q.1, f q.2))

/-- The types at another place. -/
def moveTypes (f : Nat → Nat) : List TypeExpr → List TypeExpr
  | [] => []
  | t :: rest => t.move f :: moveTypes f rest

end

/-- The declaration at another place. -/
def Decl.move (f : Nat → Nat) (d : Decl) : Decl :=
  ⟨d.range.move f, d.type.move f, d.name.move f, d.expr.map (Expr.move f)⟩

mutual

/-- The meta value at another place. -/
def Meta.move (f : Nat → Nat) : Meta → Meta
  | .null r => .null (r.move f)
  | .boolean r value => .boolean (r.move f) value
  | .number r sign n => .number (r.move f) sign (n.move f)
  | .string q => .string (q.move f)
  | .array r items => .array (r.move f) (moveMetas f items)
  | .object r members => .object (r.move f) (moveMetaMembers f members)

/-- The meta values at another place. -/
def moveMetas (f : Nat → Nat) : List Meta → List Meta
  | [] => []
  | m :: rest => m.move f :: moveMetas f rest

/-- The entries of a meta object at another place. -/
def moveMetaMembers (f : Nat → Nat) : List MetaMember → List MetaMember
  | [] => []
  | (key, r, m) :: rest => (key.move f, r.move f, m.move f) :: moveMetaMembers f rest

end

/-- The meta section at another place. -/
def MetaSection.move (f : Nat → Nat) (s : MetaSection) : MetaSection :=
  ⟨s.range.move f, s.kind, moveMetaMembers f s.members⟩

/-- The runtime entry at another place. -/
def RuntimeEntry.move (f : Nat → Nat) (e : RuntimeEntry) : RuntimeEntry :=
  ⟨e.range.move f, e.key.move f, e.expr.move f⟩

/-- The command at another place. -/
def Command.move (f : Nat → Nat) (c : Command) : Command :=
  ⟨c.range.move f, c.style, moveParts f c.parts⟩

/-- The item of a task at another place. -/
def TaskItem.move (f : Nat → Nat) : TaskItem → TaskItem
  | .inputs r ds => .inputs (r.move f) (ds.map (Decl.move f))
  | .outputs r ds => .outputs (r.move f) (ds.map (Decl.move f))
  | .metadata s => .metadata (s.move f)
  | .runtime r entries => .runtime (r.move f) (entries.map (RuntimeEntry.move f))
  | .decl d => .decl (d.move f)

/-- The task at another place. -/
def Task.move (f : Nat → Nat) (t : Task) : Task :=
  ⟨t.range.move f, t.name.move f, t.before.map (TaskItem.move f), t.command.move f,
    t.behind.map (TaskItem.move f)⟩

/-- The input of a call at another place. -/
def CallInput.move (f : Nat → Nat) (i : CallInput) : CallInput :=
  ⟨i.range.move f, i.name.move f, i.expr.map (Expr.move f)⟩

/-- The call at another place. -/
def Call.move (f : Nat → Nat) (c : Call) : Call :=
  ⟨c.range.move f, c.callee.map (Word.move f), c.givenName.map (Word.move f),
    c.inputs.map (CallInput.move f)⟩

mutual

/-- The element of a workflow's body at another place. -/
def WorkflowNode.move (f : Nat → Nat) : WorkflowNode → WorkflowNode
  | .decl d => .decl (d.move f)
  | .call c => .call (c.move f)
  | .scatter r item e body => .scatter (r.move f) (item.move f) (e.move f) (moveBody f body)
  | .conditional r e body => .conditional (r.move f) (e.move f) (moveBody f body)

/-- The body of a nested section at another place. -/
def moveBody (f : Nat → Nat) : List WorkflowNode → List WorkflowNode
  | [] => []
  | n :: rest => n.move f :: moveBody f rest

end

/-- The item of a workflow at another place. -/
def WorkflowItem.move (f : Nat → Nat) : WorkflowItem → WorkflowItem
  | .inputs r ds => .inputs (r.move f) (ds.map (Decl.move f))
  | .outputs r ds => .outputs (r.move f) (ds.map (Decl.move f))
  | .metadata s => .metadata (s.move f)
  | .node n => .node (n.move f)

/-- The workflow at another place. -/
def Workflow.move (f : Nat → Nat) (w : Workflow) : Workflow :=
  ⟨w.range.move f, w.name.move f, w.items.map (WorkflowItem.move f)⟩

/-- The alias at another place. -/
def Alias.move (f : Nat → Nat) (a : Alias) : Alias :=
  ⟨a.range.move f, a.source.move f, a.target.move f⟩

/-- The import at another place. -/
def Import.move (f : Nat → Nat) (i : Import) : Import :=
  ⟨i.range.move f, i.uri.move f, i.givenName.map (Word.move f), i.aliases.map (Alias.move f)⟩

/-- The struct definition at another place. -/
def StructDef.move (f : Nat → Nat) (s : StructDef) : StructDef :=
  ⟨s.range.move f, s.name.move f, s.members.map (Decl.move f)⟩

/-- The element of a document at another place. -/
def Element.move (f : Nat → Nat) : Element → Element
  | .version r w => .version (r.move f) (w.move f)
  | .importDoc i => .importDoc (i.move f)
  | .struct s => .struct (s.move f)
  | .task t => .task (t.move f)
  | .workflow w => .workflow (w.move f)

/-- The document at another place. -/
def Document.move (f : Nat → Nat) (d : Document) : Document := ⟨d.elements.map (Element.move f)⟩

variable {f : Nat → Nat}

theorem moveAccessors_eq (as : List Accessor) :
    moveAccessors f as = as.map (Accessor.move f) := by
  induction as with
  | nil => rfl
  | cons a as ih => cases a <;> rw [moveAccessors, ih] <;> rfl

theorem moveParts_eq (ps : List Part) : moveParts f ps = ps.map (Part.move f) := by
  induction ps with
  | nil => rfl
  | cons p ps ih => cases p <;> rw [moveParts, ih] <;> rfl

theorem moveTypes_eq (ts : List TypeExpr) : moveTypes f ts = ts.map (TypeExpr.move f) := by
  induction ts with
  | nil => rfl
  | cons t ts ih => rw [moveTypes, ih, List.map_cons]

theorem moveMetas_eq (ms : List Meta) : moveMetas f ms = ms.map (Meta.move f) := by
  induction ms with
  | nil => rfl
  | cons m ms ih => rw [moveMetas, ih, List.map_cons]

theorem moveMetaMembers_eq (ms : List MetaMember) :
    moveMetaMembers f ms = ms.map fun m => (m.1.move f, m.2.1.move f, m.2.2.move f) := by
  induction ms with
  | nil => rfl
  | cons m ms ih => rw [moveMetaMembers, ih, List.map_cons]

theorem moveBody_eq (ns : List WorkflowNode) : moveBody f ns = ns.map (WorkflowNode.move f) := by
  induction ns with
  | nil => rfl
  | cons n ns ih => rw [moveBody, ih, List.map_cons]

theorem TypeExpr.range_move (t : TypeExpr) : (t.move f).range = t.range.move f := by
  cases t
  rw [move, range, range]

theorem Meta.range_move (m : Meta) : (m.move f).range = m.range.move f := by
  cases m with
  | string q => rfl
  | _ => rw [move, range, range]

/-! ## There and back

The two functions are fixed for all of what follows, with the assumption that the second takes back
the first. -/

/-- Items that are moved one by one come back one by one. -/
theorem map_back {α : Type} {m n : α → α} (each : ∀ x, n (m x) = x) (xs : List α) :
    (xs.map m).map n = xs := by
  rw [List.map_map]
  exact (List.map_congr_left fun x _ => each x).trans (List.map_id xs)

section Back

variable {g : Nat → Nat} (back : ∀ n, g (f n) = n)

include back

-- in a mutual block the linter misses that `back` is passed on
set_option linter.unusedSectionVars false

theorem Word.move_back (w : Word) : (w.move f).move g = w := by
  rw [Word.move, Word.move, Range.move_back back]

theorem Quoted.move_back (q : Quoted) : (q.move f).move g = q := by
  rw [Quoted.move, Quoted.move, Range.move_back back]

theorem Number.move_back (n : Number) : (n.move f).move g = n := by
  rw [Number.move, Number.move, Range.move_back back]

theorem Key.move_back (k : Key) : (k.move f).move g = k := by
  cases k with
  | word w => exact congrArg Key.word (w.move_back back)
  | quoted q => exact congrArg Key.quoted (q.move_back back)

theorem PlaceholderOption.move_back (o : PlaceholderOption) : (o.move f).move g = o := by
  obtain ⟨r, name, value⟩ := o
  have value' : (value.move f).move g = value := by
    cases value with
    | quoted q => exact congrArg OptionValue.quoted (q.move_back back)
    | number n => exact congrArg OptionValue.number (n.move_back back)
  simp only [PlaceholderOption.move, Range.move_back back, name.move_back back, value']

mutual

theorem Expr.move_back : (σ : Expr) → (σ.move f).move g = σ
  | .boolean r _ | .null r => by simp only [Expr.move, Range.move_back back r]
  | .number n => by simp only [Expr.move, n.move_back back]
  | .string r ps => by simp only [Expr.move, Range.move_back back r, moveParts_back ps]
  | .array r items => by simp only [Expr.move, Range.move_back back r, moveExprs_back items]
  | .pair r left right => by
    simp only [Expr.move, Range.move_back back r, Expr.move_back left, Expr.move_back right]
  | .group r inner => by simp only [Expr.move, Range.move_back back r, Expr.move_back inner]
  | .map r items => by simp only [Expr.move, Range.move_back back r, movePairs_back items]
  | .choice r a b c => by
    simp only [Expr.move, Range.move_back back r, Expr.move_back a, Expr.move_back b,
      Expr.move_back c]
  | .apply r function arguments => by
    simp only [Expr.move, Range.move_back back r, function.move_back back,
      moveExprs_back arguments]
  | .struct r name ms => by
    simp only [Expr.move, Range.move_back back r, name.move_back back, moveMembers_back ms]
  | .name w => by simp only [Expr.move, w.move_back back]
  | .access subject as => by
    simp only [Expr.move, Expr.move_back subject, moveAccessors_back as]
  | .signed signs operand => by
    have signs' : (signs.map fun x => (x.1, x.2.move f)).map (fun x => (x.1, x.2.move g)) =
        signs := map_back (fun x => congrArg (x.1, ·) (Range.move_back back x.2)) signs
    simp only [Expr.move, signs', Expr.move_back operand]
  | .chain first rest => by simp only [Expr.move, Expr.move_back first, moveLinks_back rest]

theorem moveExprs_back : (σs : List Expr) → moveExprs g (moveExprs f σs) = σs
  | [] => rfl
  | σ :: σs => by simp only [moveExprs, Expr.move_back σ, moveExprs_back σs]

theorem movePairs_back : (items : List (Expr × Expr)) → movePairs g (movePairs f items) = items
  | [] => rfl
  | (key, value) :: items => by
    simp only [movePairs, Expr.move_back key, Expr.move_back value, movePairs_back items]

theorem moveMembers_back : (ms : List (Key × Expr)) → moveMembers g (moveMembers f ms) = ms
  | [] => rfl
  | (key, value) :: ms => by
    simp only [moveMembers, key.move_back back, Expr.move_back value, moveMembers_back ms]

theorem moveLinks_back : (links : List (BinaryOp × Expr)) → moveLinks g (moveLinks f links) = links
  | [] => rfl
  | (_, σ) :: links => by simp only [moveLinks, Expr.move_back σ, moveLinks_back links]

theorem moveAccessors_back : (as : List Accessor) → moveAccessors g (moveAccessors f as) = as
  | [] => rfl
  | .index r i :: as => by
    simp only [moveAccessors, Range.move_back back r, Expr.move_back i, moveAccessors_back as]
  | .member r name :: as => by
    simp only [moveAccessors, Range.move_back back r, name.move_back back, moveAccessors_back as]

theorem moveParts_back : (ps : List Part) → moveParts g (moveParts f ps) = ps
  | [] => rfl
  | .text r _ :: ps => by simp only [moveParts, Range.move_back back r, moveParts_back ps]
  | .placeholder p :: ps => by
    simp only [moveParts, Placeholder.move_back p, moveParts_back ps]

theorem Placeholder.move_back : (p : Placeholder) → (p.move f).move g = p
  | .mk r options σ => by
    have options' : (options.map (PlaceholderOption.move f)).map (PlaceholderOption.move g) =
        options := map_back (PlaceholderOption.move_back back) options
    simp only [Placeholder.move, Range.move_back back r, options', Expr.move_back σ]

end

mutual

theorem TypeExpr.move_back : (t : TypeExpr) → (t.move f).move g = t
  | .mk r name parameters q => by
    have q' : (q.map fun q => (q.1, f q.2)).map (fun q => (q.1, g q.2)) = q := by
      cases q <;> simp [back]
    simp only [TypeExpr.move, Range.move_back back r, name.move_back back,
      moveTypes_back parameters, q']

theorem moveTypes_back : (ts : List TypeExpr) → moveTypes g (moveTypes f ts) = ts
  | [] => rfl
  | t :: ts => by simp only [moveTypes, TypeExpr.move_back t, moveTypes_back ts]

end

theorem word?_back (w : Option Word) : (w.map (Word.move f)).map (Word.move g) = w := by
  cases w with
  | none => rfl
  | some w => exact congrArg some (w.move_back back)

theorem expr?_back (σ : Option Expr) : (σ.map (Expr.move f)).map (Expr.move g) = σ := by
  cases σ with
  | none => rfl
  | some σ => exact congrArg some (σ.move_back back)

theorem Decl.move_back (d : Decl) : (d.move f).move g = d := by
  simp only [Decl.move, Range.move_back back, TypeExpr.move_back back, Word.move_back back,
    expr?_back back]

mutual

theorem Meta.move_back : (m : Meta) → (m.move f).move g = m
  | .null r | .boolean r _ => by simp only [Meta.move, Range.move_back back r]
  | .number r _ n => by simp only [Meta.move, Range.move_back back r, n.move_back back]
  | .string q => by simp only [Meta.move, q.move_back back]
  | .array r items => by simp only [Meta.move, Range.move_back back r, moveMetas_back items]
  | .object r members => by
    simp only [Meta.move, Range.move_back back r, moveMetaMembers_back members]

theorem moveMetas_back : (ms : List Meta) → moveMetas g (moveMetas f ms) = ms
  | [] => rfl
  | m :: ms => by simp only [moveMetas, Meta.move_back m, moveMetas_back ms]

theorem moveMetaMembers_back : (ms : List MetaMember) →
    moveMetaMembers g (moveMetaMembers f ms) = ms
  | [] => rfl
  | (key, r, m) :: ms => by
    simp only [moveMetaMembers, key.move_back back, Range.move_back back r, Meta.move_back m,
      moveMetaMembers_back ms]

end

theorem MetaSection.move_back (s : MetaSection) : (s.move f).move g = s := by
  simp only [MetaSection.move, Range.move_back back, moveMetaMembers_back back]

theorem RuntimeEntry.move_back (e : RuntimeEntry) : (e.move f).move g = e := by
  simp only [RuntimeEntry.move, Range.move_back back, Word.move_back back, Expr.move_back back]

theorem Command.move_back (c : Command) : (c.move f).move g = c := by
  simp only [Command.move, Range.move_back back, moveParts_back back]

theorem TaskItem.move_back (item : TaskItem) : (item.move f).move g = item := by
  cases item <;> simp only [TaskItem.move, Range.move_back back, map_back (Decl.move_back back),
    map_back (RuntimeEntry.move_back back), MetaSection.move_back back, Decl.move_back back]

theorem Task.move_back (t : Task) : (t.move f).move g = t := by
  simp only [Task.move, Range.move_back back, Word.move_back back,
    map_back (TaskItem.move_back back), Command.move_back back]

theorem CallInput.move_back (i : CallInput) : (i.move f).move g = i := by
  simp only [CallInput.move, Range.move_back back, Word.move_back back, expr?_back back]

theorem Call.move_back (c : Call) : (c.move f).move g = c := by
  simp only [Call.move, Range.move_back back, map_back (Word.move_back back), word?_back back,
    map_back (CallInput.move_back back)]

mutual

theorem WorkflowNode.move_back : (n : WorkflowNode) → (n.move f).move g = n
  | .decl d => by simp only [WorkflowNode.move, d.move_back back]
  | .call c => by simp only [WorkflowNode.move, c.move_back back]
  | .scatter r item e body => by
    simp only [WorkflowNode.move, Range.move_back back r, item.move_back back, e.move_back back,
      moveBody_back body]
  | .conditional r e body => by
    simp only [WorkflowNode.move, Range.move_back back r, e.move_back back, moveBody_back body]

theorem moveBody_back : (ns : List WorkflowNode) → moveBody g (moveBody f ns) = ns
  | [] => rfl
  | n :: ns => by simp only [moveBody, WorkflowNode.move_back n, moveBody_back ns]

end

theorem WorkflowItem.move_back (item : WorkflowItem) : (item.move f).move g = item := by
  cases item <;> simp only [WorkflowItem.move, Range.move_back back,
    map_back (Decl.move_back back), MetaSection.move_back back, WorkflowNode.move_back back]

theorem Workflow.move_back (w : Workflow) : (w.move f).move g = w := by
  simp only [Workflow.move, Range.move_back back, Word.move_back back,
    map_back (WorkflowItem.move_back back)]

theorem Alias.move_back (a : Alias) : (a.move f).move g = a := by
  simp only [Alias.move, Range.move_back back, Word.move_back back]

theorem Import.move_back (i : Import) : (i.move f).move g = i := by
  simp only [Import.move, Range.move_back back, Quoted.move_back back, word?_back back,
    map_back (Alias.move_back back)]

theorem StructDef.move_back (s : StructDef) : (s.move f).move g = s := by
  simp only [StructDef.move, Range.move_back back, Word.move_back back,
    map_back (Decl.move_back back)]

theorem Element.move_back (e : Element) : (e.move f).move g = e := by
  cases e <;> simp only [Element.move, Range.move_back back, Word.move_back back,
    Import.move_back back, StructDef.move_back back, Task.move_back back, Workflow.move_back back]

/-- A document that is moved there and back is where it was. -/
theorem Document.move_back (d : Document) : (d.move f).move g = d := by
  simp only [Document.move, map_back (Element.move_back back)]

end Back

end Surface

/-! ## Nodes

What is not written in the text, such as names and values, stays as it is. -/

/-- The type at another place. -/
def Ty.move (f : Nat → Nat) : Ty → Ty
  | .atom r kind => .atom (r.move f) kind
  | .struct r name => .struct (r.move f) name
  | .optional r inner => .optional (r.move f) (inner.move f)
  | .array r item nonempty => .array (r.move f) (item.move f) nonempty
  | .map r key value => .map (r.move f) (key.move f) (value.move f)
  | .pair r left right => .pair (r.move f) (left.move f) (right.move f)

mutual

/-- The meta value at another place. -/
def Meta.move (f : Nat → Nat) : Meta → Meta
  | .null r => .null (r.move f)
  | .boolean r value => .boolean (r.move f) value
  | .int r value radix => .int (r.move f) value radix
  | .float r value => .float (r.move f) value
  | .string r value => .string (r.move f) value
  | .array r items => .array (r.move f) (moveMetas f items)
  | .object r members => .object (r.move f) (moveMetaMembers f members)

/-- The meta values at another place. -/
def moveMetas (f : Nat → Nat) : List Meta → List Meta
  | [] => []
  | m :: rest => m.move f :: moveMetas f rest

/-- The entries of a meta mapping at another place. -/
def moveMetaMembers (f : Nat → Nat) : List (String × Meta) → List (String × Meta)
  | [] => []
  | (key, m) :: rest => (key, m.move f) :: moveMetaMembers f rest

end

/-- The version statement at another place. -/
def Version.move (f : Nat → Nat) (v : Version) : Version := { v with range := v.range.move f }

/-- The import at another place. -/
def Import.move (f : Nat → Nat) (i : Import) : Import := { i with range := i.range.move f }

/-- The declaration at another place. -/
def Decl.move (f : Nat → Nat) (d : Decl) : Decl :=
  ⟨d.range.move f, d.type.move f, d.name, d.expr.map (Expr.move f)⟩

/-- The struct definition at another place. -/
def StructDef.move (f : Nat → Nat) (s : StructDef) : StructDef :=
  ⟨s.range.move f, s.name, s.members.map (Decl.move f)⟩

/-- The command at another place. -/
def Command.move (f : Nat → Nat) (c : Command) : Command :=
  ⟨c.range.move f, moveParts f c.parts, c.heredoc⟩

/-- Named expressions at another place. -/
def moveEntries (f : Nat → Nat) (entries : List (String × Expr)) : List (String × Expr) :=
  entries.map fun entry => (entry.1, entry.2.move f)

/-- The task at another place. -/
def Task.move (f : Nat → Nat) (t : Task) : Task where
  range := t.range.move f
  name := t.name
  inputs := t.inputs.map (Decl.move f)
  postinputs := t.postinputs.map (Decl.move f)
  command := t.command.move f
  outputs := t.outputs.map (Decl.move f)
  parameterMeta := moveMetaMembers f t.parameterMeta
  runtime := moveEntries f t.runtime
  metadata := moveMetaMembers f t.metadata

/-- The call at another place. -/
def Call.move (f : Nat → Nat) (c : Call) : Call :=
  ⟨c.range.move f, c.callee, c.givenName, moveEntries f c.inputs⟩

mutual

/-- The element of a workflow's body at another place. -/
def WorkflowNode.move (f : Nat → Nat) : WorkflowNode → WorkflowNode
  | .decl d => .decl (d.move f)
  | .call c => .call (c.move f)
  | .scatter r body item e => .scatter (r.move f) (moveBody f body) item (e.move f)
  | .conditional r body e => .conditional (r.move f) (moveBody f body) (e.move f)

/-- The body of a nested section at another place. -/
def moveBody (f : Nat → Nat) : List WorkflowNode → List WorkflowNode
  | [] => []
  | n :: rest => n.move f :: moveBody f rest

end

/-- The workflow at another place. -/
def Workflow.move (f : Nat → Nat) (w : Workflow) : Workflow where
  range := w.range.move f
  name := w.name
  inputs := w.inputs.map (Decl.move f)
  body := moveBody f w.body
  outputs := w.outputs.map (Decl.move f)
  parameterMeta := moveMetaMembers f w.parameterMeta
  metadata := moveMetaMembers f w.metadata

/-- The element of a document at another place. -/
def Element.move (f : Nat → Nat) : Element → Element
  | .importDoc i => .importDoc (i.move f)
  | .structDef s => .structDef (s.move f)
  | .task t => .task (t.move f)
  | .workflow w => .workflow (w.move f)

/-- The document with what is in it at another place, in another text. -/
def Document.move (f : Nat → Nat) (source : SourceText) (d : Document) : Document :=
  ⟨source.wholeRange, d.version.move f, d.body.map (Element.move f), source⟩

/-- The node at another place; a document stays in its text. -/
def Node.move (f : Nat → Nat) : Node → Node
  | .document d => .document (d.move f d.source)
  | .version v => .version (v.move f)
  | .importDoc i => .importDoc (i.move f)
  | .structDef s => .structDef (s.move f)
  | .task t => .task (t.move f)
  | .command c => .command (c.move f)
  | .workflow w => .workflow (w.move f)
  | .call c => .call (c.move f)
  | .scatter r body item e => .scatter (r.move f) (moveBody f body) item (e.move f)
  | .conditional r body e => .conditional (r.move f) (moveBody f body) (e.move f)
  | .decl d => .decl (d.move f)
  | .type t => .type (t.move f)
  | .expr e => .expr (e.move f)
  | .placeholder p => .placeholder (p.move f)
  | .metaValue m => .metaValue (m.move f)

variable {f : Nat → Nat}

/-! ## Lists of parts of nodes -/

theorem moveExprs_eq_map (es : List Expr) : moveExprs f es = es.map (Expr.move f) := by
  induction es with
  | nil => rfl
  | cons e es ih => rw [moveExprs, ih, List.map_cons]

theorem movePairs_eq_map (items : List (Expr × Expr)) :
    movePairs f items = items.map fun x => (x.1.move f, x.2.move f) := by
  induction items with
  | nil => rfl
  | cons x items ih => rw [movePairs, ih, List.map_cons]

theorem moveMembers_eq_map (ms : List (Text × Expr)) :
    moveMembers f ms = ms.map fun x => (x.1, x.2.move f) := by
  induction ms with
  | nil => rfl
  | cons x ms ih => rw [moveMembers, ih, List.map_cons]

theorem moveMetas_eq_map (ms : List Meta) : moveMetas f ms = ms.map (Meta.move f) := by
  induction ms with
  | nil => rfl
  | cons m ms ih => rw [moveMetas, ih, List.map_cons]

theorem moveMetaMembers_eq_map (ms : List (String × Meta)) :
    moveMetaMembers f ms = ms.map fun x => (x.1, x.2.move f) := by
  induction ms with
  | nil => rfl
  | cons x ms ih => rw [moveMetaMembers, ih, List.map_cons]

theorem moveBody_eq_map (ns : List WorkflowNode) :
    moveBody f ns = ns.map (WorkflowNode.move f) := by
  induction ns with
  | nil => rfl
  | cons n ns ih => rw [moveBody, ih, List.map_cons]

/-! ## What a moved node holds

A view has no ranges in it, so each of these is by unfolding both sides along the node. -/

theorem Ty.view_move (t : Ty) : (t.move f).view = t.view := by
  induction t with
  | atom | struct => simp only [move, view, label]
  | optional _ _ ih | array _ _ _ ih => simp only [move, view, ih]
  | map _ _ _ ih ih' | pair _ _ _ ih ih' => simp only [move, view, ih, ih']

mutual

theorem Meta.view_move : (m : Meta) → (m.move f).view = m.view
  | .null _ | .boolean _ _ | .int _ _ _ | .float _ _ | .string _ _ => by
    simp only [Meta.move, Meta.view]
  | .array _ items => by simp only [Meta.move, Meta.view, viewMetas_move items]
  | .object _ members => by simp only [Meta.move, Meta.view, viewMetaMembers_move members]

theorem viewMetas_move : (ms : List Meta) → viewMetas (moveMetas f ms) = viewMetas ms
  | [] => rfl
  | m :: ms => by simp only [moveMetas, viewMetas, Meta.view_move m, viewMetas_move ms]

theorem viewMetaMembers_move : (ms : List (String × Meta)) →
    viewMetaMembers (moveMetaMembers f ms) = viewMetaMembers ms
  | [] => rfl
  | (_, m) :: ms => by
    simp only [moveMetaMembers, viewMetaMembers, Meta.view_move m, viewMetaMembers_move ms]

end

theorem Decl.view_move (d : Decl) : (d.move f).view = d.view := by
  obtain ⟨r, type, name, e⟩ := d
  cases e <;> simp [move, view, Ty.view_move, Expr.view_move]

theorem declViews_move (ds : List Decl) :
    (ds.map (Decl.move f)).map Decl.view = ds.map Decl.view := by
  rw [List.map_map]
  exact List.map_congr_left fun d _ => d.view_move

theorem StructDef.view_move (s : StructDef) : (s.move f).view = s.view := by
  simp only [move, view, declViews_move]

theorem Command.view_move (c : Command) : (c.move f).view = c.view := by
  simp only [move, view, viewParts_move]

theorem Task.view_move (t : Task) : (t.move f).view = t.view := by
  have runtime : (moveEntries f t.runtime).map (fun x => (x.1, x.2.view)) =
      t.runtime.map fun x => (x.1, x.2.view) := by
    rw [moveEntries, List.map_map]
    exact List.map_congr_left fun x _ => congrArg (x.1, ·) x.2.view_move
  simp only [move, view, declViews_move, Command.view_move, viewMetaMembers_move, runtime]

theorem Call.view_move (c : Call) : (c.move f).view = c.view := by
  simp only [move, view, moveEntries, List.map_map, Function.comp_def, Expr.view_move]

mutual

theorem WorkflowNode.view_move : (n : WorkflowNode) → (n.move f).view = n.view
  | .decl d => by simp only [WorkflowNode.move, WorkflowNode.view, d.view_move]
  | .call c => by simp only [WorkflowNode.move, WorkflowNode.view, c.view_move]
  | .scatter _ body _ e => by
    simp only [WorkflowNode.move, WorkflowNode.view, viewNodes_move body, e.view_move]
  | .conditional _ body e => by
    simp only [WorkflowNode.move, WorkflowNode.view, viewNodes_move body, e.view_move]

theorem viewNodes_move : (ns : List WorkflowNode) → viewNodes (moveBody f ns) = viewNodes ns
  | [] => rfl
  | n :: ns => by simp only [moveBody, viewNodes, n.view_move, viewNodes_move ns]

end

theorem Workflow.view_move (w : Workflow) : (w.move f).view = w.view := by
  simp only [move, view, declViews_move, viewNodes_move, viewMetaMembers_move]

theorem Element.view_move (e : Element) : (e.move f).view = e.view := by
  cases e with
  | importDoc i => rfl
  | structDef s => exact s.view_move
  | task t => exact t.view_move
  | workflow w => exact w.view_move

/-- What a document holds does not depend on where it is, nor on the text around it. -/
theorem Document.view_move (source : SourceText) (d : Document) :
    (d.move f source).view = d.view := by
  have body : (d.body.map (Element.move f)).map Element.view = d.body.map Element.view := by
    rw [List.map_map]
    exact List.map_congr_left fun e _ => e.view_move
  simp only [move, view, body]
  rfl

theorem Node.view_move (n : Node) : (n.move f).view = n.view := by
  cases n with
  | document d => exact d.view_move d.source
  | version | importDoc => rfl
  | structDef s => exact s.view_move
  | task t => exact t.view_move
  | command c => exact c.view_move
  | workflow w => exact w.view_move
  | call c => exact c.view_move
  | scatter r body item e => exact WorkflowNode.view_move (.scatter r body item e)
  | conditional r body e => exact WorkflowNode.view_move (.conditional r body e)
  | decl d => exact d.view_move
  | type t => exact t.view_move
  | expr e => exact e.view_move
  | placeholder p => exact Placeholder.view_move p
  | metaValue m => exact m.view_move

/-! ## Where a moved node and its children are -/

theorem Ty.range_move (t : Ty) : (t.move f).range = t.range.move f := by
  cases t <;> rw [move, range, range]

theorem Meta.range_move (m : Meta) : (m.move f).range = m.range.move f := by
  cases m <;> rw [move, range, range]

theorem WorkflowNode.node_move (n : WorkflowNode) : (n.move f).node = n.node.move f := by
  cases n <;> rw [move, node, node, Node.move]

theorem Element.node_move (e : Element) : (e.move f).node = e.node.move f := by
  cases e <;> rfl

theorem bodyNodes_move (ns : List WorkflowNode) :
    (moveBody f ns).map WorkflowNode.node = (ns.map WorkflowNode.node).map (Node.move f) := by
  rw [moveBody_eq_map, List.map_map, List.map_map]
  exact List.map_congr_left fun n _ => n.node_move

theorem declNodes_move (ds : List Decl) :
    declNodes (ds.map (Decl.move f)) = (declNodes ds).map (Node.move f) := by
  rw [declNodes, declNodes, List.map_map, List.map_map]
  rfl

theorem partNodes_move (ps : List Part) :
    partNodes (moveParts f ps) = (partNodes ps).map (Node.move f) := by
  induction ps with
  | nil => rfl
  | cons p ps ih =>
    cases p with
    | text _ => exact ih
    | placeholder p => exact congrArg (Node.placeholder (p.move f) :: ·) ih

theorem entryNodes_move (entries : List (String × Expr)) :
    memberNodes (moveEntries f entries) = (memberNodes entries).map (Node.move f) := by
  rw [moveEntries, memberNodes, memberNodes, List.map_map, List.map_map]
  rfl

theorem memberNodes_move (ms : List (Text × Expr)) :
    memberNodes (moveMembers f ms) = (memberNodes ms).map (Node.move f) := by
  rw [moveMembers_eq_map, memberNodes, memberNodes, List.map_map, List.map_map]
  rfl

theorem metaNodes_move (ms : List (String × Meta)) :
    metaNodes (moveMetaMembers f ms) = (metaNodes ms).map (Node.move f) := by
  rw [moveMetaMembers_eq_map, metaNodes, metaNodes, List.map_map, List.map_map]
  rfl

theorem Expr.children_move (e : Expr) :
    (e.move f).children = e.children.map (Node.move f) := by
  cases e with
  | string r ps =>
    rw [move]
    exact partNodes_move ps
  | array r items | apply r function items =>
    rw [move, moveExprs_eq_map, children, children, List.map_map, List.map_map]
    rfl
  | map r items =>
    rw [move, movePairs_eq_map, children, children, List.flatMap_map, List.map_flatMap]
    rfl
  | struct r ms name =>
    rw [move]
    exact memberNodes_move ms
  | _ =>
    rw [move]
    rfl

theorem Meta.children_move (m : Meta) :
    (m.move f).children = m.children.map (Node.move f) := by
  cases m with
  | array r items =>
    rw [move, moveMetas_eq_map, children, children, List.map_map, List.map_map]
    rfl
  | object r members =>
    rw [move]
    exact metaNodes_move members
  | _ =>
    rw [move]
    rfl

theorem Ty.parameters_move (t : Ty) : (t.move f).parameters = t.parameters.map (Ty.move f) := by
  cases t <;> rfl

theorem Decl.children_move (d : Decl) :
    (d.move f).children = d.children.map (Node.move f) := by
  obtain ⟨r, type, name, e⟩ := d
  cases e <;> rfl

theorem Document.children_move (source : SourceText) (d : Document) :
    (Node.document (d.move f source)).children = (Node.document d).children.map (Node.move f) := by
  show Node.version _ :: (d.body.map (Element.move f)).map Element.node =
    Node.version _ :: (d.body.map Element.node).map (Node.move f)
  rw [List.map_map, List.map_map]
  exact congrArg _ (List.map_congr_left fun e _ => e.node_move)

/-- The children of a moved node are the moved children. -/
theorem Node.children_move (n : Node) : (n.move f).children = n.children.map (Node.move f) := by
  cases n with
  | document d => exact d.children_move d.source
  | version | importDoc => rfl
  | structDef s => exact declNodes_move s.members
  | task t =>
    simp only [move, children, Task.children, Task.move, declNodes_move, entryNodes_move,
      metaNodes_move, List.map_append, List.map_cons]
  | command c => exact partNodes_move c.parts
  | workflow w =>
    simp only [move, children, Workflow.children, Workflow.move, declNodes_move, bodyNodes_move,
      metaNodes_move, List.map_append]
  | call c => exact entryNodes_move c.inputs
  | scatter r body item e => exact congrArg (Node.expr (e.move f) :: ·) (bodyNodes_move body)
  | conditional r body e => exact congrArg (Node.expr (e.move f) :: ·) (bodyNodes_move body)
  | decl d => exact d.children_move
  | type t =>
    simp only [move, children, Ty.parameters_move, List.map_map]
    rfl
  | expr e => exact e.children_move
  | placeholder p => cases p; rfl
  | metaValue m => exact m.children_move

theorem WorkflowNode.node_ne_document (n : WorkflowNode) (d : Document) : n.node ≠ .document d := by
  cases n <;> simp [node]

theorem Element.node_ne_document (e : Element) (d : Document) : e.node ≠ .document d := by
  cases e <;> simp [node]

/-- No document is below another node. -/
theorem Node.document_notMem_children (d : Document) (n : Node) : .document d ∉ n.children := by
  cases n with
  | expr e => cases e <;> simp [children, Expr.children, partNodes, memberNodes]
  | metaValue m => cases m <;> simp [children, Meta.children, metaNodes]
  | _ => simp [children, Task.children, Workflow.children, Decl.children, declNodes, partNodes,
      memberNodes, metaNodes, WorkflowNode.node_ne_document, Element.node_ne_document]

/-- A path that leads anywhere else than back to its start leads to no document. -/
theorem Node.descendant?_ne_document {path : List Nat} (ne : path ≠ []) {n m : Node}
    (h : descendant? path n = some m) (d : Document) : m ≠ .document d := by
  induction path generalizing n with
  | nil => exact absurd rfl ne
  | cons i path ih =>
    obtain ⟨c, child, h⟩ := Option.bind_eq_some_iff.1 h
    cases path with
    | nil =>
      cases h
      rintro rfl
      exact n.document_notMem_children d (List.mem_of_getElem? child)
    | cons j path => exact ih (List.cons_ne_nil _ _) h

/-- A node other than a document is where it is moved to. -/
theorem Node.range_move {n : Node} (h : ∀ d, n ≠ .document d) :
    (n.move f).range = n.range.move f := by
  cases n with
  | document d => exact absurd rfl (h d)
  | type t => exact t.range_move
  | expr e => exact e.range_move
  | metaValue m => exact m.range_move
  | placeholder p => cases p; rfl
  | _ => rfl

/-- A path leads to the moved node of the one it led to before. -/
theorem Node.descendant?_move (path : List Nat) (n : Node) :
    descendant? path (n.move f) = (descendant? path n).map (Node.move f) := by
  induction path generalizing n with
  | nil => rfl
  | cons i path ih =>
    simp only [descendant?, children_move, List.getElem?_map, Option.bind_map]
    cases n.children[i]? with
    | none => rfl
    | some c => exact ih c

end Wdl
