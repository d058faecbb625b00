import Wdl.Proofs.Outcomes
import Wdl.Request

/-!
# Wdl.Proofs.Reservations -- reserving more words

Two sets of rules for one front end, of which one reserves a few words and the other many. Names are
checked at many places of a build, some are exempt, and namespaces are checked in a way of their
own. But a check only ever stops what it checks. So up to the first name that just the stricter
rules reserve the two builds go the same way, and if there is none they end alike: with the same
tree and the same warnings, or with the same violation at the same place.

* `Violated.Refusal` is what only the stricter rules refuse: a name, or the namespace of an import.
* `Tightens R c c'` says of two checks that the second is the first, or is refused by `R`.
  `checkName_tightens` and `importDoc_tightens` are the places where the rules differ. For every
  other function of the builder there is a lemma that follows its structure by `tightens_bind` and
  `tightens_map`.
* `Builder.Tightens` is the same for computations that warn, with equal warnings up to the refusal.

`Request.parseBy_reserving` is the result about requests. Both sets of rules have one table of
character names, and read escapes alike.
-/

namespace Wdl

variable {α β : Type}

/-! ## Refusals -/

/-- The namespace of an import, given what its URI is decoded to. -/
def Build.namespaceOf (i : Surface.Import) (uri : Text) : String :=
  (i.givenName.map Surface.Word.text).getD (inferredNamespace uri)

/-- What is only violated if many words are reserved, not if a few of them are: a name is one of the
others, or the namespace of one of the imports given. -/
inductive Violated.Refusal (N : CharacterNames) (few many : List String)
    (imports : Surface.Import → Prop) : Violated → Prop
  | name {w : String} {r : Range} : w ∈ many → w ∉ few →
      Refusal N few many imports ⟨.reservedName w, r⟩
  | namespaceOf {i : Surface.Import} {uri : Text} : imports i →
      Build.quotedText N i.uri = .ok uri → Build.namespaceOf i uri ∈ many →
        Build.namespaceOf i uri ∉ few →
      Refusal N few many imports ⟨.badNamespace, i.range⟩

open Violated (Refusal)

namespace Build

/-! ## Checks -/

/-- A second check is the first one, or it is refused. -/
def Tightens (R : Violated → Prop) (c c' : Checked α) : Prop := c' = c ∨ ∃ v, R v ∧ c' = .error v

section Tightens

variable {R : Violated → Prop} {c c' : Checked α} {f f' : α → Checked β}

/-- What does not look at names is the same under both rules. -/
theorem tightens_refl (c : Checked α) : Tightens R c c := .inl rfl

/-- A check behind a check is the same, or one of the two is refused. -/
theorem tightens_bind (first : Tightens R c c') (rest : ∀ x, Tightens R (f x) (f' x)) :
    Tightens R (c >>= f) (c' >>= f') := by
  rcases first with rfl | ⟨v, refused, rfl⟩
  · cases c' with
    | error v => exact .inl rfl
    | ok x => exact rest x
  · exact .inr ⟨v, refused, rfl⟩

/-- What is done with the result of a check may not depend on how many words are reserved. -/
theorem tightens_map (first : Tightens R c c') (f : α → Checked β) :
    Tightens R (c >>= f) (c' >>= f) :=
  tightens_bind first fun x => tightens_refl (f x)

/-- Checks of the items of a list are the same, or one of them is refused. -/
theorem tightens_mapM (each : ∀ x, Tightens R (f x) (f' x)) (xs : List α) :
    Tightens R (xs.mapM f) (xs.mapM f') := by
  induction xs with
  | nil => exact tightens_refl _
  | cons x xs ih =>
    rw [List.mapM_cons, List.mapM_cons]
    exact tightens_bind (each x) fun y => tightens_map ih fun ys => pure (y :: ys)

end Tightens

/-! ## Expressions -/

section Rules

variable {fe : FrontEnd} {few many : List String} {N : CharacterNames}
  {imports : Surface.Import → Prop}
  (sub : few ⊆ many)

include sub

-- in a mutual block the linter misses that `sub` is passed on
set_option linter.unusedSectionVars false

/-- The one place where the rules differ: a name that only many words hold is refused. -/
theorem checkName_tightens (w : Surface.Word) :
    Tightens (Refusal N few many imports) (checkName ⟨fe, few, N⟩ w)
      (checkName ⟨fe, many, N⟩ w) := by
  by_cases inFew : w.text ∈ few
  · exact .inl (by simp [checkName, inFew, sub inFew])
  by_cases inMany : w.text ∈ many
  · have refused : checkName ⟨fe, many, N⟩ w = violate (.reservedName w.text) w.range := by
      simp [checkName, inMany]
    exact .inr ⟨_, .name inMany inFew, refused⟩
  · exact .inl (by simp [checkName, inFew, inMany])

/-- The members of pairs are exempt under both rules, and others are checked as names. -/
theorem checkMember_tightens (w : Surface.Word) :
    Tightens (Refusal N few many imports) (checkMember ⟨fe, few, N⟩ w)
      (checkMember ⟨fe, many, N⟩ w) := by
  unfold checkMember
  split
  · exact tightens_refl _
  · exact checkName_tightens sub w

/-- The word for a struct without a type is exempt under both rules, and others are checked as
names. -/
theorem structName_tightens (w : Surface.Word) :
    Tightens (Refusal N few many imports) (structName ⟨fe, few, N⟩ w)
      (structName ⟨fe, many, N⟩ w) := by
  unfold structName
  split
  · exact tightens_refl _
  · exact tightens_map (checkName_tightens sub w) _

mutual

/-- An expression is built alike under both rules, or it holds a name that is refused. -/
theorem expr_tightens : (σ : Surface.Expr) →
    Tightens (Refusal N few many imports) (expr ⟨fe, few, N⟩ σ) (expr ⟨fe, many, N⟩ σ)
  | .boolean _ _ | .null _ | .number _ => tightens_refl _
  | .string _ ps => by
    simp only [expr]
    exact tightens_map (rawParts_tightens ps) _
  | .array _ items => by
    simp only [expr]
    exact tightens_map (exprs_tightens items) _
  | .pair _ left right => by
    simp only [expr]
    exact tightens_bind (expr_tightens left) fun _ => tightens_map (expr_tightens right) _
  | .group _ inner => by
    simp only [expr]
    exact tightens_map (expr_tightens inner) _
  | .map _ items => by
    simp only [expr]
    exact tightens_map (pairs_tightens items) _
  | .choice _ condition consequent alternative => by
    simp only [expr]
    exact tightens_bind (expr_tightens condition) fun _ =>
      tightens_bind (expr_tightens consequent) fun _ => tightens_map (expr_tightens alternative) _
  | .apply _ _ arguments => by
    simp only [expr]
    exact tightens_map (exprs_tightens arguments) _
  | .struct _ name ms => by
    simp only [expr]
    exact tightens_bind (members_tightens ms) fun _ =>
      tightens_map (structName_tightens sub name) _
  | .name w => by
    simp only [expr]
    exact tightens_map (checkName_tightens sub w) _
  | .access subject accessors => by
    simp only [expr]
    exact tightens_bind (expr_tightens subject) fun _ =>
      tightens_map (accesses_tightens accessors) _
  | .signed _ operand => by
    simp only [expr]
    exact tightens_map (expr_tightens operand) _
  | .chain first rest => by
    simp only [expr]
    exact tightens_bind (expr_tightens first) fun _ => tightens_map (operands_tightens rest) _

theorem exprs_tightens : (σs : List Surface.Expr) →
    Tightens (Refusal N few many imports) (exprs ⟨fe, few, N⟩ σs) (exprs ⟨fe, many, N⟩ σs)
  | [] => tightens_refl _
  | σ :: σs => by
    simp only [exprs]
    exact tightens_bind (expr_tightens σ) fun _ => tightens_map (exprs_tightens σs) _

theorem pairs_tightens : (items : List (Surface.Expr × Surface.Expr)) →
    Tightens (Refusal N few many imports) (pairs ⟨fe, few, N⟩ items) (pairs ⟨fe, many, N⟩ items)
  | [] => tightens_refl _
  | (key, value) :: items => by
    simp only [pairs]
    exact tightens_bind (expr_tightens key) fun _ => tightens_bind (expr_tightens value) fun _ =>
      tightens_map (pairs_tightens items) _

/-- A key in quotes is decoded under both rules, a bare one checked. -/
theorem members_tightens : (ms : List (Surface.Key × Surface.Expr)) →
    Tightens (Refusal N few many imports) (members ⟨fe, few, N⟩ ms) (members ⟨fe, many, N⟩ ms)
  | [] => tightens_refl _
  | (.quoted _, value) :: ms => by
    simp only [members]
    exact tightens_bind (tightens_refl _) fun _ => tightens_bind (expr_tightens value) fun _ =>
      tightens_map (members_tightens ms) _
  | (.word w, value) :: ms => by
    simp only [members]
    exact tightens_bind (expr_tightens value) fun _ =>
      tightens_bind (checkName_tightens sub w) fun _ => tightens_map (members_tightens ms) _

theorem operands_tightens : (links : List (BinaryOp × Surface.Expr)) →
    Tightens (Refusal N few many imports) (operands ⟨fe, few, N⟩ links)
      (operands ⟨fe, many, N⟩ links)
  | [] => tightens_refl _
  | (_, σ) :: links => by
    simp only [operands]
    exact tightens_bind (expr_tightens σ) fun _ => tightens_map (operands_tightens links) _

theorem accesses_tightens : (as : List Surface.Accessor) →
    Tightens (Refusal N few many imports) (accesses ⟨fe, few, N⟩ as) (accesses ⟨fe, many, N⟩ as)
  | [] => tightens_refl _
  | .index _ i :: as => by
    simp only [accesses]
    exact tightens_bind (expr_tightens i) fun _ => tightens_map (accesses_tightens as) _
  | .member _ name :: as => by
    simp only [accesses]
    exact tightens_bind (checkMember_tightens sub name) fun _ =>
      tightens_map (accesses_tightens as) _

theorem rawParts_tightens : (ps : List Surface.Part) →
    Tightens (Refusal N few many imports) (rawParts ⟨fe, few, N⟩ ps) (rawParts ⟨fe, many, N⟩ ps)
  | [] => tightens_refl _
  | .text _ _ :: ps => by
    simp only [rawParts]
    exact tightens_map (rawParts_tightens ps) _
  | .placeholder p :: ps => by
    simp only [rawParts]
    exact tightens_bind (placeholder_tightens p) fun _ => tightens_map (rawParts_tightens ps) _

theorem placeholder_tightens : (p : Surface.Placeholder) →
    Tightens (Refusal N few many imports) (placeholder ⟨fe, few, N⟩ p) (placeholder ⟨fe, many, N⟩ p)
  | .mk _ _ e => by
    simp only [placeholder]
    exact tightens_bind (tightens_refl _) fun _ => tightens_map (expr_tightens e) _

end

/-! ## Declarations and workflows -/

theorem initializer_tightens (σ : Option Surface.Expr) :
    Tightens (Refusal N few many imports) (initializer ⟨fe, few, N⟩ σ)
      (initializer ⟨fe, many, N⟩ σ) := by
  cases σ with
  | none => exact tightens_refl _
  | some σ => exact tightens_map (expr_tightens sub σ) _

theorem decl_tightens (d : Surface.Decl) :
    Tightens (Refusal N few many imports) (decl ⟨fe, few, N⟩ d) (decl ⟨fe, many, N⟩ d) :=
  tightens_bind (tightens_refl _) fun _ => tightens_bind (initializer_tightens sub d.expr) fun _ =>
    tightens_map (checkName_tightens sub d.name) _

theorem outputs_tightens (ds : List Surface.Decl) :
    Tightens (Refusal N few many imports) (outputs ⟨fe, few, N⟩ ds) (outputs ⟨fe, many, N⟩ ds) :=
  tightens_map (tightens_mapM (decl_tightens sub) ds) _

theorem runtimeEntry_tightens (entry : Surface.RuntimeEntry) :
    Tightens (Refusal N few many imports) (runtimeEntry ⟨fe, few, N⟩ entry)
      (runtimeEntry ⟨fe, many, N⟩ entry) :=
  tightens_map (expr_tightens sub entry.expr) _

theorem callInput_tightens (i : Surface.CallInput) :
    Tightens (Refusal N few many imports) (callInput ⟨fe, few, N⟩ i) (callInput ⟨fe, many, N⟩ i) :=
  tightens_bind (initializer_tightens sub i.expr) fun _ =>
    tightens_map (checkName_tightens sub i.name) _

theorem givenName_tightens (w : Option Surface.Word) :
    Tightens (Refusal N few many imports) (w.forM (checkName ⟨fe, few, N⟩))
      (w.forM (checkName ⟨fe, many, N⟩)) := by
  cases w with
  | none => exact tightens_refl _
  | some w => exact checkName_tightens sub w

theorem call_tightens (c : Surface.Call) :
    Tightens (Refusal N few many imports) (call ⟨fe, few, N⟩ c) (call ⟨fe, many, N⟩ c) :=
  tightens_bind (tightens_mapM (callInput_tightens sub) c.inputs) fun _ =>
    tightens_map (givenName_tightens sub c.givenName) _

mutual

theorem workflowNode_tightens : (n : Surface.WorkflowNode) →
    Tightens (Refusal N few many imports) (workflowNode ⟨fe, few, N⟩ n)
      (workflowNode ⟨fe, many, N⟩ n)
  | .decl d => by
    simp only [workflowNode]
    exact tightens_map (decl_tightens sub d) _
  | .call c => by
    simp only [workflowNode]
    exact tightens_map (call_tightens sub c) _
  | .scatter _ item e body => by
    simp only [workflowNode]
    exact tightens_bind (expr_tightens sub e) fun _ =>
      tightens_bind (workflowNodes_tightens body) fun _ =>
        tightens_map (checkName_tightens sub item) _
  | .conditional _ e body => by
    simp only [workflowNode]
    exact tightens_bind (expr_tightens sub e) fun _ =>
      tightens_map (workflowNodes_tightens body) _

theorem workflowNodes_tightens : (ns : List Surface.WorkflowNode) →
    Tightens (Refusal N few many imports) (workflowNodes ⟨fe, few, N⟩ ns)
      (workflowNodes ⟨fe, many, N⟩ ns)
  | [] => tightens_refl _
  | n :: ns => by
    simp only [workflowNodes]
    exact tightens_bind (workflowNode_tightens n) fun _ =>
      tightens_map (workflowNodes_tightens ns) _

end

theorem workflowItem_tightens (item : Surface.WorkflowItem) :
    Tightens (Refusal N few many imports) (workflowItem ⟨fe, few, N⟩ item)
      (workflowItem ⟨fe, many, N⟩ item) := by
  cases item with
  | inputs r ds => exact tightens_map (tightens_mapM (decl_tightens sub) ds) _
  | outputs r ds => exact tightens_map (outputs_tightens sub ds) _
  | metadata s => exact tightens_refl _
  | node n => exact tightens_map (workflowNode_tightens sub n) _

theorem workflow_tightens (w : Surface.Workflow) :
    Tightens (Refusal N few many imports) (workflow ⟨fe, few, N⟩ w) (workflow ⟨fe, many, N⟩ w) :=
  tightens_bind (tightens_mapM (workflowItem_tightens sub) w.items) fun _ =>
    tightens_map (checkName_tightens sub w.name) _

/-! ## Imports and structs -/

theorem importAlias_tightens (a : Surface.Alias) :
    Tightens (Refusal N few many imports) (importAlias ⟨fe, few, N⟩ a)
      (importAlias ⟨fe, many, N⟩ a) :=
  tightens_map (checkName_tightens sub a.target) _

/-- A namespace that is no name is a violation under both rules. One that is a name is refused if
only many words hold it. -/
theorem importDoc_tightens {i : Surface.Import} (h : imports i) :
    Tightens (Refusal N few many imports) (importDoc ⟨fe, few, N⟩ i)
      (importDoc ⟨fe, many, N⟩ i) := by
  unfold importDoc
  cases decoded : quotedText N i.uri with
  | error v => exact tightens_refl _
  | ok uri =>
    change Tightens _ (i.aliases.mapM _ >>= _) (i.aliases.mapM _ >>= _)
    refine tightens_bind (tightens_mapM (importAlias_tightens sub) i.aliases) fun aliases => ?_
    show Tightens _ (if !isNameText (namespaceOf i uri) || few.contains (namespaceOf i uri) then _
      else _) (if !isNameText (namespaceOf i uri) || many.contains (namespaceOf i uri) then _
      else _)
    by_cases inFew : namespaceOf i uri ∈ few
    · exact .inl (by simp [inFew, sub inFew])
    by_cases inMany : namespaceOf i uri ∈ many
    · exact .inr ⟨⟨.badNamespace, i.range⟩, .namespaceOf h decoded inMany inFew, by
        simp [inMany, violate]⟩
    · exact .inl (by simp [inFew, inMany])

theorem structDef_tightens (s : Surface.StructDef) :
    Tightens (Refusal N few many imports) (structDef ⟨fe, few, N⟩ s) (structDef ⟨fe, many, N⟩ s) :=
  tightens_bind (tightens_mapM (decl_tightens sub) s.members) fun _ =>
    tightens_map (checkName_tightens sub s.name) _

end Rules

end Build

/-! ## Builders -/

/-- A second builder does what the first one does, warnings included, or it is refused. -/
def Builder.Tightens (R : Violated → Prop) (b b' : Builder α) : Prop :=
  ∀ before, StateT.run (ExceptT.run b') before = StateT.run (ExceptT.run b) before ∨
    ∃ v after, R v ∧ StateT.run (ExceptT.run b') before = (.error v, after)

namespace Builder

section Tightens

variable {R : Violated → Prop} {b b' : Builder α} {f f' : α → Builder β}

theorem tightens_refl (b : Builder α) : Tightens R b b := fun _ => .inl rfl

theorem tightens_bind (first : Tightens R b b') (rest : ∀ x, Tightens R (f x) (f' x)) :
    Tightens R (b >>= f) (b' >>= f') := by
  intro before
  simp only [ExceptT.run_bind, StateT.run_bind]
  rcases first before with same | ⟨v, after, refused, eq⟩
  · rw [same]
    rcases StateT.run (ExceptT.run b) before with ⟨_ | x, between⟩
    · exact .inl rfl
    · exact rest x between
  · rw [eq]
    exact .inr ⟨v, after, refused, rfl⟩

theorem tightens_map (first : Tightens R b b') (f : α → Builder β) :
    Tightens R (b >>= f) (b' >>= f) :=
  tightens_bind first fun x => tightens_refl (f x)

theorem tightens_check {c c' : Checked α} (h : Build.Tightens R c c') :
    Tightens R (Build.check c) (Build.check c') := by
  rcases h with rfl | ⟨v, refused, rfl⟩
  · exact tightens_refl _
  · exact fun before => .inr ⟨v, before, refused, rfl⟩

theorem tightens_each {xs : List α} (h : ∀ x ∈ xs, Tightens R (f x) (f' x)) :
    Tightens R (Build.each f xs) (Build.each f' xs) := by
  induction xs with
  | nil => exact tightens_refl _
  | cons x xs ih =>
    obtain ⟨first, rest⟩ := List.forall_mem_cons.1 h
    exact tightens_bind first fun _ => tightens_map (ih rest) _

end Tightens

end Builder

namespace Build

section Rules

variable {fe : FrontEnd} {few many : List String} {N : CharacterNames}
  {imports : Surface.Import → Prop}
  (sub : few ⊆ many)

include sub

theorem command_tightens (c : Surface.Command) :
    Builder.Tightens (Refusal N few many imports) (command ⟨fe, few, N⟩ c)
      (command ⟨fe, many, N⟩ c) :=
  Builder.tightens_map (Builder.tightens_check (rawParts_tightens sub c.parts)) _

theorem taskItem_tightens (item : Surface.TaskItem) :
    Builder.Tightens (Refusal N few many imports) (taskItem ⟨fe, few, N⟩ item)
      (taskItem ⟨fe, many, N⟩ item) := by
  cases item with
  | inputs r ds =>
    exact Builder.tightens_map (Builder.tightens_check (tightens_mapM (decl_tightens sub) ds)) _
  | outputs r ds =>
    exact Builder.tightens_map (Builder.tightens_check (outputs_tightens sub ds)) _
  | metadata s => exact Builder.tightens_refl _
  | runtime r entries =>
    exact Builder.tightens_map
      (Builder.tightens_check (tightens_mapM (runtimeEntry_tightens sub) entries)) _
  | decl d => exact Builder.tightens_map (Builder.tightens_check (decl_tightens sub d)) _

/-- The name of a task is checked after everything in the task is built, under both rules. -/
theorem task_tightens (t : Surface.Task) :
    Builder.Tightens (Refusal N few many imports) (task ⟨fe, few, N⟩ t) (task ⟨fe, many, N⟩ t) :=
  Builder.tightens_bind (Builder.tightens_each fun item _ => taskItem_tightens sub item) fun _ =>
    Builder.tightens_bind (command_tightens sub t.command) fun _ =>
      Builder.tightens_bind
        (Builder.tightens_each fun item _ => taskItem_tightens sub item) fun _ =>
          Builder.tightens_map (Builder.tightens_check (checkName_tightens sub t.name)) _

theorem element_tightens {x : Surface.Element} (h : ∀ i, x = .importDoc i → imports i) :
    Builder.Tightens (Refusal N few many imports) (element ⟨fe, few, N⟩ x)
      (element ⟨fe, many, N⟩ x) := by
  cases x with
  | version r w => exact Builder.tightens_refl _
  | importDoc i =>
    exact Builder.tightens_map (Builder.tightens_check (importDoc_tightens sub (h i rfl))) _
  | struct s => exact Builder.tightens_map (Builder.tightens_check (structDef_tightens sub s)) _
  | task t => exact Builder.tightens_map (task_tightens sub t) _
  | workflow w => exact Builder.tightens_map (Builder.tightens_check (workflow_tightens sub w)) _

theorem document_tightens (source : SourceText) {d : Surface.Document}
    (h : ∀ i, .importDoc i ∈ d.elements → imports i) :
    Builder.Tightens (Refusal N few many imports) (document ⟨fe, few, N⟩ source d)
      (document ⟨fe, many, N⟩ source d) :=
  Builder.tightens_map
    (Builder.tightens_each fun _ mem => element_tightens sub fun i eq => h i (eq ▸ mem)) _

end Rules

end Build

/-! ## Requests -/

/-- Parsing gives the same under the stricter rules, or it ends in a refusal. -/
def Parsed.Tightens (fe : FrontEnd) (R : Violated → Prop) (p p' : Parsed α) : Prop :=
  p' = p ∨ ∃ v, R v ∧ p'.result = .error (.violated fe v)

namespace Parsed

variable {fe : FrontEnd} {R : Violated → Prop}

theorem tightens_ofBuilder {b b' : Builder α} (h : b.Tightens R b') :
    Tightens fe R (.ofBuilder fe b) (.ofBuilder fe b') := by
  rcases h [] with same | ⟨v, after, refused, eq⟩
  · exact .inl (by simp only [ofBuilder, same])
  · exact .inr ⟨v, refused, by simp only [ofBuilder, eq]⟩

/-- Whether a text parses does not depend on how many words are reserved, only what is built from
it does. -/
theorem tightens_ofSurface {surface : Except Rejection α} {build build' : α → Builder β}
    (h : ∀ s, surface = .ok s → (build s).Tightens R (build' s)) :
    Tightens fe R (.ofSurface fe surface build) (.ofSurface fe surface build') := by
  cases surface with
  | error r => exact .inl rfl
  | ok s => exact tightens_ofBuilder (h s rfl)

end Parsed

namespace Request

/-- The text of a request reads as a document that has an import. -/
def Imports (fe : FrontEnd) (r : Request) (i : Surface.Import) : Prop :=
  r.start = .document ∧ ∃ d, Surface.Document.parse fe.next r.source.chars = .ok d ∧
    .importDoc i ∈ d.elements

theorem finish_tightens {fe : FrontEnd} {few many : List String} {N : CharacterNames}
    {R : Violated → Prop} (r : Request) {p p' : Parsed α} (h : p.Tightens fe R p') (node : α → Node)
      (elements : α → Option Nat) :
    r.finish ⟨fe, many, N⟩ p' node elements = r.finish ⟨fe, few, N⟩ p node elements ∨
      ∃ v, R v ∧ (r.finish ⟨fe, many, N⟩ p' node elements).2 =
        .error (.rejected r.source (.violated fe v)) := by
  rcases h with rfl | ⟨v, refused, eq⟩
  · exact .inl rfl
  · exact .inr ⟨v, refused, by simp only [finish, eq]⟩

theorem parseBy_tightens (fe : FrontEnd) (N : CharacterNames) {few many : List String}
    (sub : few ⊆ many) (r : Request) :
    r.parseBy ⟨fe, many, N⟩ = r.parseBy ⟨fe, few, N⟩ ∨
      ∃ v, Violated.Refusal N few many (r.Imports fe) v ∧
        (r.parseBy ⟨fe, many, N⟩).2 = .error (.rejected r.source (.violated fe v)) := by
  unfold parseBy
  cases start : r.start with
  | document =>
    exact r.finish_tightens (Parsed.tightens_ofSurface fun d parsed =>
      Build.document_tightens sub r.source fun i mem => ⟨start, d, parsed, mem⟩) _ _
  | expr =>
    exact r.finish_tightens (Parsed.tightens_ofSurface fun _ _ =>
      Builder.tightens_check (Build.expr_tightens sub _)) _ _

/-- Reserving more words, a request gives the same as before, or it is rejected for a name or
namespace that was not reserved before. So what is accepted stays the same when fewer words are
reserved, or none. -/
theorem parseBy_reserving (fe : FrontEnd) (N : CharacterNames) {few many : List String}
    (sub : few ⊆ many) (r : Request) :
    (r.parseBy ⟨fe, many, N⟩ = r.parseBy ⟨fe, few, N⟩ ∨
      ∃ v, Violated.Refusal N few many (r.Imports fe) v ∧
        (r.parseBy ⟨fe, many, N⟩).2 = .error (.rejected r.source (.violated fe v))) ∧
    ∀ root, (r.parseBy ⟨fe, many, N⟩).2 = .ok root → (r.parseBy ⟨fe, few, N⟩).2 = .ok root := by
  refine ⟨parseBy_tightens fe N sub r, fun root accepted => ?_⟩
  rcases parseBy_tightens fe N sub r with same | ⟨v, -, refused⟩
  · rw [← same, accepted]
  · rw [accepted] at refused
    cases refused

/-- A member may be called `left`, but no name on its own may. -/
theorem parseBy_reserving_left :
    let r : Request := { start := .expr, source := .ofString "x.left + left" "" "" }
    ∃ v, Violated.Refusal .none ["right"] reservedWords (r.Imports .flat) v ∧
      (r.parseBy ⟨.flat, reservedWords, .none⟩).2 =
        .error (.rejected r.source (.violated .flat v)) ∧
      v.range = ⟨9, 13⟩ ∧ (r.parseBy ⟨.flat, ["right"], .none⟩).2.toOption.isSome := by
  intro r
  have accepted : (r.parseBy ⟨.flat, ["right"], .none⟩).2.toOption.isSome = true := by
    decide +kernel
  have refused : (r.parseBy ⟨.flat, reservedWords, .none⟩).2.toOption.isSome = false := by
    decide +kernel
  have place : (match (r.parseBy ⟨.flat, reservedWords, .none⟩).2 with
      | .error (.rejected _ e) => some e.range
      | _ => none) = some ⟨9, 13⟩ := by decide +kernel
  have sub : ["right"] ⊆ reservedWords := by decide
  rcases (parseBy_reserving .flat .none sub r).1 with same | ⟨v, refusal, eq⟩
  · rw [same, accepted] at refused
    cases refused
  · rw [eq] at place
    exact ⟨v, refusal, eq, Option.some.inj place, accepted⟩

end Request

end Wdl
