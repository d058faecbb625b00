import Wdl.Proofs.Outcomes
import Wdl.Proofs.Steps
import Wdl.Parser.Document

/-!
# Wdl.Proofs.Bindings -- which declarations the grammar binds

Three kinds of declarations differ only in their initializers: members of a struct have none, the
private declarations of a task and all declarations in a workflow's body have one, and those of
input and output sections may have one. The grammar alone decides the first two. What is said of the
parser of one declaration is carried through the lists and the nested sections up to the elements of
a document.

* `Surface.WorkflowNode.Bound`, `Surface.TaskItem.Bound`, `Surface.WorkflowItem.Bound` and
  `Surface.Element.Bound` say where an initializer stands.
* `Ensures p P` is the specification of a parser: whatever it returns has the property `P`.
  `ensures_bind`, `ensures_seq` and `ensures_many` carry it through sequences and lists.
* `document_bound` is the result for whole documents.
-/

namespace Wdl

namespace Surface

/-- An element of a workflow's body in which every declaration has an initializer, at any depth. -/
inductive WorkflowNode.Bound : WorkflowNode → Prop
  | decl {d : Decl} : d.expr.isSome → WorkflowNode.Bound (.decl d)
  | call (c : Call) : WorkflowNode.Bound (.call c)
  | scatter {r : Range} {item : Word} {e : Expr} {body : List WorkflowNode} :
      (∀ n ∈ body, n.Bound) → WorkflowNode.Bound (.scatter r item e body)
  | conditional {r : Range} {e : Expr} {body : List WorkflowNode} :
      (∀ n ∈ body, n.Bound) → WorkflowNode.Bound (.conditional r e body)

/-- An item of a workflow whose declarations, those of sections apart, have initializers. -/
def WorkflowItem.Bound : WorkflowItem → Prop
  | .node n => n.Bound
  | _ => True

/-- An item of a task which, if it is a private declaration, has an initializer. -/
def TaskItem.Bound : TaskItem → Prop
  | .decl d => d.expr.isSome
  | _ => True

/-- An element whose declarations are bound where the grammar says so. -/
def Element.Bound : Element → Prop
  | .struct s => ∀ d ∈ s.members, d.expr = none
  | .task t => ∀ i ∈ t.before ++ t.behind, i.Bound
  | .workflow w => ∀ i ∈ w.items, i.Bound
  | _ => True

end Surface

namespace Parser

variable {α β : Type} {lex : Scanner}

/-! ## What parsers return -/

/-- Whatever a parser returns has a property. -/
def Ensures (p : Parser α) (P : α → Prop) : Prop :=
  ∀ s s' x, p s = .ok (x, s') → P x

section Ensures

variable {p : Parser α} {f : α → Parser β} {P : α → Prop} {Q : β → Prop}

/-- What the second parser returns may depend on what is known of the first. -/
theorem ensures_bind (hp : Ensures p P) (hf : ∀ x, P x → Ensures (f x) Q) :
    Ensures (p >>= f) Q := by
  intro s s' y h
  obtain ⟨x, t, hx, h⟩ := bind_eq_ok.1 h
  exact hf x (hp s t x hx) t s' y h

/-- What the first parser returns may not matter. -/
theorem ensures_seq (hf : ∀ x, Ensures (f x) Q) : Ensures (p >>= f) Q :=
  ensures_bind (P := fun _ => True) (fun _ _ _ _ => trivial) fun x _ => hf x

theorem ensures_pure {x : α} (h : P x) : Ensures (pure x) P := by
  intro s s' y hy
  obtain ⟨rfl, -⟩ := pure_eq_ok.1 hy
  exact h

theorem ensures_reject : Ensures (reject : Parser α) P := by
  intro s s' x h
  exact (reject_ne_ok.1 h).elim

/-- Every item of a list is returned by the parser of the items. -/
theorem ensures_many (h : Ensures p P) (starts : Terminal → Bool) :
    Ensures (many starts p) fun xs => ∀ x ∈ xs, P x := by
  refine ensures_seq fun n => ?_
  induction n with
  | zero => exact ensures_pure (by simp)
  | succ n ih =>
    refine ensures_seq fun k => ?_
    split
    · refine ensures_bind h fun x hx => ensures_bind ih fun xs hxs => ensures_pure ?_
      simpa using ⟨hx, hxs⟩
    · exact ensures_pure (by simp)

end Ensures

/-! ## Declarations -/

/-- A declaration with an equal sign has an initializer. -/
theorem boundDecl_bound : Ensures (boundDecl lex) fun d => d.expr.isSome := by
  intro s s' d h
  simp only [boundDecl, initialized, bind_eq_ok, pure_eq_ok] at h
  obtain ⟨_, _, -, _, _, -, _, _, -, e, _, -, rfl, -⟩ := h
  rfl

/-- A declaration without one has none. -/
theorem unboundDecl_unbound : Ensures (unboundDecl lex) fun d => d.expr = none := by
  intro s s' d h
  simp only [unboundDecl, bind_eq_ok, pure_eq_ok] at h
  obtain ⟨_, _, -, _, _, -, rfl, -⟩ := h
  rfl

/-! ## Workflows -/

section Nested

variable {node : Parser Surface.WorkflowNode} (hnode : Ensures node Surface.WorkflowNode.Bound)

include hnode

theorem nestedBody_bound : Ensures (nestedBody lex node) fun x => ∀ n ∈ x.1, n.Bound := by
  intro s s' x h
  simp only [nestedBody, bind_eq_ok, pure_eq_ok] at h
  obtain ⟨_, _, -, body, _, hbody, _, _, -, rfl, -⟩ := h
  exact ensures_many hnode _ _ _ _ hbody

theorem scatter_bound : Ensures (scatter lex node) Surface.WorkflowNode.Bound := by
  intro s s' x h
  simp only [scatter, bind_eq_ok, pure_eq_ok] at h
  obtain ⟨_, _, -, _, _, -, _, _, -, _, _, -, e, _, -, _, _, -, body, _, hbody, rfl, -⟩ := h
  exact .scatter (nestedBody_bound hnode _ _ _ hbody)

theorem conditional_bound : Ensures (conditional lex node) Surface.WorkflowNode.Bound := by
  intro s s' x h
  simp only [conditional, bind_eq_ok, pure_eq_ok] at h
  obtain ⟨_, _, -, _, _, -, e, _, -, _, _, -, body, _, hbody, rfl, -⟩ := h
  exact .conditional (nestedBody_bound hnode _ _ _ hbody)

end Nested

theorem nodeUpTo_bound (n : Nat) : Ensures (nodeUpTo lex n) Surface.WorkflowNode.Bound := by
  -- the elements of a section nest less deep than the section
  induction n with
  | zero => exact ensures_reject
  | succ n ih =>
    refine ensures_seq fun ahead => ?_
    split
    · exact ensures_seq fun c => ensures_pure (.call c)
    · exact scatter_bound ih
    · exact conditional_bound ih
    · exact ensures_bind boundDecl_bound fun d bound => ensures_pure (.decl bound)

theorem workflowItem_bound : Ensures (workflowItem lex) Surface.WorkflowItem.Bound := by
  refine ensures_seq fun ahead => ?_
  split
  · exact ensures_seq fun _ => ensures_pure trivial
  · exact ensures_seq fun _ => ensures_pure trivial
  · exact ensures_seq fun _ => ensures_pure trivial
  · exact ensures_seq fun _ => ensures_pure trivial
  · exact ensures_seq fun n => ensures_bind (nodeUpTo_bound n) fun _ bound => ensures_pure bound

theorem workflow_bound : Ensures (workflow lex) fun w => ∀ i ∈ w.items, i.Bound := by
  intro s s' w h
  simp only [workflow, bind_eq_ok, pure_eq_ok] at h
  obtain ⟨_, _, -, _, _, -, _, _, -, items, _, hitems, _, _, -, rfl, -⟩ := h
  exact ensures_many workflowItem_bound _ _ _ _ hitems

/-! ## Tasks -/

theorem runtimeSection_bound : Ensures (runtimeSection lex) Surface.TaskItem.Bound := by
  intro s s' i h
  simp only [runtimeSection, bind_eq_ok, pure_eq_ok] at h
  obtain ⟨_, _, -, _, _, -, _, _, -, _, _, -, rfl, -⟩ := h
  trivial

theorem taskItem_bound : Ensures (taskItem lex) Surface.TaskItem.Bound := by
  refine ensures_seq fun ahead => ?_
  split
  · exact ensures_seq fun _ => ensures_pure trivial
  · exact ensures_seq fun _ => ensures_pure trivial
  · exact ensures_seq fun _ => ensures_pure trivial
  · exact ensures_seq fun _ => ensures_pure trivial
  · exact runtimeSection_bound
  · exact ensures_bind boundDecl_bound fun _ bound => ensures_pure bound

theorem task_bound : Ensures (task lex) fun t => ∀ i ∈ t.before ++ t.behind, i.Bound := by
  intro s s' t h
  simp only [task, bind_eq_ok, pure_eq_ok] at h
  obtain ⟨_, _, -, _, _, -, _, _, -, before, _, hbefore, _, _, -, behind, _, hbehind, _, _, -, rfl,
    -⟩ := h
  intro i hi
  rcases List.mem_append.1 hi with hi | hi
  · exact ensures_many taskItem_bound _ _ _ _ hbefore i hi
  · exact ensures_many taskItem_bound _ _ _ _ hbehind i hi

/-! ## Documents -/

theorem structDef_unbound : Ensures (structDef lex) fun s => ∀ d ∈ s.members, d.expr = none := by
  intro s s' x h
  simp only [structDef, bind_eq_ok, pure_eq_ok] at h
  obtain ⟨_, _, -, _, _, -, _, _, -, members, _, hmembers, _, _, -, rfl, -⟩ := h
  exact ensures_many unboundDecl_unbound _ _ _ _ hmembers

theorem element_bound : Ensures (element lex) Surface.Element.Bound := by
  refine ensures_seq fun ahead => ?_
  split
  · exact ensures_seq fun _ => ensures_seq fun _ => ensures_pure trivial
  · exact ensures_seq fun _ => ensures_pure trivial
  · exact ensures_bind structDef_unbound fun _ unbound => ensures_pure unbound
  · exact ensures_bind task_bound fun _ bound => ensures_pure bound
  · exact ensures_bind workflow_bound fun _ bound => ensures_pure bound

/-- In every document the grammar accepts, declarations are bound where it says so. -/
theorem document_bound : Ensures (document lex) fun d => ∀ e ∈ d.elements, e.Bound :=
  ensures_bind (ensures_many element_bound _) fun _ bound => ensures_pure bound

end Parser

end Wdl
