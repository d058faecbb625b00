import Wdl.Proofs.Assembly
import Wdl.Proofs.FrontEnds
import Wdl.Proofs.Placement

/-!
# Wdl.Proofs.Lawful -- the rules that hold at every node, and why expressions keep them

`Node.Lawful` says what some rules of the language ask of one node, and `n.Everywhere (Node.Lawful
rules)` that they hold of a node and all that is below it. In an expression they concern numbers,
signs and the options of placeholders:

* numbers are bounded when they are read (`numberValue_small`), and negating one keeps the bound;
* a sign never stays before a number: it is folded in (`applySign_number`), and stays before
  anything else (`applySign_other`);
* names of options are checked (`placeholderOption_name`).

`lawful_expr` is the result, by recursion on the surface form along with the lemmas for its lists.
How a chain is nested does not matter: `lawful_nestChain` is about folds of any tree of operands.
-/

namespace Wdl

/-! ## The rules

The cases that ask nothing are those whose rules are about the list that a node is in, or about
nothing but its type. `LawfulNodes` is the form that lists of children take. -/

/-- A declaration with an initializer. -/
def Decl.Bound (d : Decl) : Prop := d.expr.isSome

/-- What a workflow's body consists of: declarations with initializers, calls, scatter sections and
conditional sections. -/
def WorkflowNode.Proper : WorkflowNode → Prop
  | .decl d => d.Bound
  | .call _ => True
  | .scatter _ _ _ _ => True
  | .conditional _ _ _ => True

/-- What a document's body consists of besides imports, structs and tasks. -/
def Element.isWorkflow : Element → Bool
  | .workflow _ => true
  | .importDoc _ | .structDef _ | .task _ => false

/-- A numeric literal. -/
def Expr.isNumber : Expr → Bool
  | .int _ _ _ | .float _ _ => true
  | _ => false

/-- What the rules of the language ask of one node, whatever is below it. -/
def Node.Lawful (rules : Rules) : Node → Prop
  | .document d => d.body.countP Element.isWorkflow ≤ 1
  | .version v => v.identifier ∈ Build.supportedVersions
  | .importDoc i => Build.isNameText i.namespaceName ∧ i.namespaceName ∉ rules.reserved
  | .structDef s => (∀ m ∈ s.members, m.expr = none) ∧ (s.members.map Decl.name).Nodup
  | .task t => (∀ d ∈ t.postinputs, d.Bound) ∧ ∀ d ∈ t.outputs, d.Bound
  | .workflow w => (∀ n ∈ w.body, n.Proper) ∧ ∀ d ∈ w.outputs, d.Bound
  | .scatter _ body _ _ => ∀ n ∈ body, n.Proper
  | .conditional _ body _ => ∀ n ∈ body, n.Proper
  | .type (.optional _ inner) => inner.isOptional = false
  | .expr (.int _ value _) => value.natAbs ≤ maxInt
  | .expr (.unary _ op operand) => op = .not ∨ operand.isNumber = false
  | .placeholder p => ∀ option ∈ p.options, option.1 ∈ Build.optionNames
  | .metaValue (.int _ value _) => value.natAbs ≤ maxInt
  | _ => True

/-- The rules hold of some nodes and of all that is below them. -/
def LawfulNodes (rules : Rules) (ns : List Node) : Prop :=
  ∀ n ∈ ns, n.Everywhere (Node.Lawful rules)

variable {rules : Rules}

namespace LawfulNodes

/-- No nodes are lawful. -/
theorem nil : LawfulNodes rules [] := by
  rintro n ⟨⟩

@[simp] theorem cons_iff {n : Node} {ns : List Node} :
    LawfulNodes rules (n :: ns) ↔ n.Everywhere (Node.Lawful rules) ∧ LawfulNodes rules ns :=
  List.forall_mem_cons

@[simp] theorem append_iff {ms ns : List Node} :
    LawfulNodes rules (ms ++ ns) ↔ LawfulNodes rules ms ∧ LawfulNodes rules ns :=
  List.forall_mem_append

/-- Fewer nodes in another order are as lawful. -/
theorem subset {ms ns : List Node} (h : LawfulNodes rules ns) (sub : ms ⊆ ns) :
    LawfulNodes rules ms := fun n hn => h n (sub hn)

@[simp] theorem map_iff {α : Type} {f : α → Node} {xs : List α} :
    LawfulNodes rules (xs.map f) ↔ ∀ x ∈ xs, (f x).Everywhere (Node.Lawful rules) :=
  List.forall_mem_map

end LawfulNodes

/-- The children of a lawful node are lawful. -/
theorem Node.Everywhere.lawfulNodes {n : Node} (h : n.Everywhere (Node.Lawful rules)) :
    LawfulNodes rules n.children := fun _ hm => h.child hm

namespace Build

/-! ## Numbers -/

/-- A number that, if it is an integer, is within the greatest in both directions. -/
def NumberValue.Small : NumberValue → Prop
  | .int value _ => value.natAbs ≤ maxInt
  | .float _ => True

/-- An integer that is read is in range. -/
theorem intLiteral_le {r : Range} {radix : Radix} {text : List Char} {n : Nat}
    (h : intLiteral r radix text = .ok n) : n ≤ maxInt := by
  unfold intLiteral at h
  split at h
  · exact (violate_ne_ok.1 h).elim
  · dsimp only at h
    split at h
    · exact (violate_ne_ok.1 h).elim
    · cases h
      omega

/-- A number that is read is in range. -/
theorem numberValue_small {n : Surface.Number} {value : NumberValue}
    (h : numberValue n = .ok value) : value.Small := by
  unfold numberValue at h
  split at h
  · cases h
    trivial
  all_goals
    obtain ⟨k, hk, h⟩ := bind_eq_ok.1 h
    cases h
    exact intLiteral_le hk

/-- Negating a number keeps it in range, for the range is symmetric. -/
theorem NumberValue.Small.neg {value : NumberValue} (h : value.Small) : value.neg.Small := by
  cases value with
  | int value radix => exact le_of_eq_of_le (Int.natAbs_neg value) h
  | float value => trivial

/-! ## Expressions -/

/-- Where an expression stands does not matter. -/
theorem lawful_withRange {r : Range} {e : Expr} (h : (Node.expr e).Everywhere (Node.Lawful rules)) :
    (Node.expr (e.withRange r)).Everywhere (Node.Lawful rules) := by
  have here := h.here
  have below := h.lawfulNodes
  cases e <;> exact .intro here below

/-- A number in range is lawful. -/
theorem lawful_number {r : Range} {value : NumberValue} (h : value.Small) :
    (Node.expr (value.expr r)).Everywhere (Node.Lawful rules) := by
  cases value with
  | int value radix => exact .intro h LawfulNodes.nil
  | float value => exact .intro trivial LawfulNodes.nil

/-- A sign before a number disappears into it. -/
theorem applySign_number (r : Range) {op : UnaryOp} {e : Expr} (sign : op ≠ .not)
    (number : e.isNumber = true) :
    applySign r op e = e.withRange r ∨ ∃ value : NumberValue, e = value.expr e.range ∧
      applySign r op e = value.neg.expr r := by
  cases e with
  | int r' value radix =>
    cases op with
    | not => exact absurd rfl sign
    | neg => exact .inr ⟨.int value radix, rfl, rfl⟩
    | pos => exact .inl rfl
  | float r' value =>
    cases op with
    | not => exact absurd rfl sign
    | neg => exact .inr ⟨.float value, rfl, rfl⟩
    | pos => exact .inl rfl
  | _ => cases number

/-- A prefix operator stays before anything else. -/
theorem applySign_other (r : Range) {op : UnaryOp} {e : Expr}
    (other : op = .not ∨ e.isNumber = false) : applySign r op e = .unary r op e := by
  unfold applySign
  split
  all_goals first
    | rfl
    | simp [Expr.isNumber] at other

/-- A prefix operator keeps an expression lawful, folded or not. -/
theorem lawful_applySign {r : Range} {op : UnaryOp} {e : Expr}
    (h : (Node.expr e).Everywhere (Node.Lawful rules)) :
    (Node.expr (applySign r op e)).Everywhere (Node.Lawful rules) := by
  by_cases other : op = .not ∨ e.isNumber = false
  · rw [applySign_other r other]
    exact .intro other (LawfulNodes.cons_iff.2 ⟨h, .nil⟩)
  · simp only [not_or, Bool.not_eq_false] at other
    rcases applySign_number r other.1 other.2 with same | ⟨value, eq, negated⟩
    · rw [same]
      exact lawful_withRange h
    · rw [negated]
      refine lawful_number (NumberValue.Small.neg ?_)
      rw [eq] at h
      cases value with
      | int value radix => exact h.here
      | float value => trivial

/-- So do several, in either front end. -/
theorem lawful_applySigns (fe : FrontEnd) (whole : Range) {signs : List (UnaryOp × Range)}
    {e : Expr} (h : (Node.expr e).Everywhere (Node.Lawful rules)) :
    (Node.expr (applySigns fe whole signs e)).Everywhere (Node.Lawful rules) := by
  rw [Parser.applySigns_eq]
  induction signs with
  | nil => exact h
  | cons sign signs ih => exact lawful_applySign ih

/-- An access with the node of its index, if it has one. -/
def Access.nodes : Access → List Node
  | .index _ i => [.expr i]
  | .member _ _ => []

/-- An access keeps an expression lawful if its index is. -/
theorem lawful_access {r : Range} {a : Access} {e : Expr}
    (h : (Node.expr e).Everywhere (Node.Lawful rules)) (ha : LawfulNodes rules a.nodes) :
    (Node.expr (a.apply r e)).Everywhere (Node.Lawful rules) := by
  cases a with
  | index r' i => exact .intro trivial (LawfulNodes.cons_iff.2 ⟨h, ha⟩)
  | member r' name => exact .intro trivial (LawfulNodes.cons_iff.2 ⟨h, .nil⟩)

/-- So do several, in either front end. -/
theorem lawful_applyAccesses (fe : FrontEnd) (start : Nat) {as : List Access} {e : Expr}
    (h : (Node.expr e).Everywhere (Node.Lawful rules))
    (has : LawfulNodes rules (as.flatMap Access.nodes)) :
    (Node.expr (applyAccesses fe start e as)).Everywhere (Node.Lawful rules) := by
  induction as generalizing e with
  | nil => cases fe <;> exact h
  | cons a as ih =>
    rw [List.flatMap_cons, LawfulNodes.append_iff] at has
    cases fe <;> exact ih (lawful_access h has.1) has.2

/-- However a chain is nested, its operators and operands are lawful. -/
theorem lawful_nestChain (fe : FrontEnd) {first : Placed} {rest : List (BinaryOp × Placed)}
    (hfirst : (Node.expr first.2).Everywhere (Node.Lawful rules))
    (hrest : LawfulNodes rules (rest.map fun link => .expr link.2.2)) :
    (Node.expr (nestChain fe first rest)).Everywhere (Node.Lawful rules) := by
  have binary : ∀ (r : Range) (op : BinaryOp) {a b : Expr},
      (Node.expr a).Everywhere (Node.Lawful rules) →
      (Node.expr b).Everywhere (Node.Lawful rules) →
      (Node.expr (.binary r op a b)).Everywhere (Node.Lawful rules) := fun r op a b ha hb =>
    .intro trivial (LawfulNodes.cons_iff.2 ⟨ha, LawfulNodes.cons_iff.2 ⟨hb, .nil⟩⟩)
  cases fe with
  | tree =>
    rw [nestChain, Grouping.layered_eq_fold]
    refine Grouping.Tree.fold_induction
      (P := fun x : Placed => (Node.expr x.2).Everywhere (Node.Lawful rules))
      (fun op _ _ => binary _ op) ?_ ?_
    · simpa using hfirst
    · rw [Grouping.rest_treeOf]
      intro link hlink
      exact hrest _ (List.mem_map_of_mem hlink)
  | flat =>
    rw [nestChain, Grouping.climb_eq_fold]
    refine Grouping.Tree.fold_induction
      (P := fun e : Expr => (Node.expr e).Everywhere (Node.Lawful rules))
      (fun op _ _ => binary _ op) ?_ ?_
    · simpa using hfirst
    · rw [Grouping.rest_treeOf]
      intro link hlink
      obtain ⟨link', hlink', rfl⟩ := List.mem_map.1 hlink
      exact hrest _ (List.mem_map_of_mem hlink')

/-- An option that is built has one of the known names. -/
theorem placeholderOption_name {N : CharacterNames} {o : Surface.PlaceholderOption}
    {entry : String × Text × Range} (h : placeholderOption N o = .ok entry) :
    entry.1 ∈ optionNames := by
  obtain ⟨text, -, h⟩ := bind_eq_ok.1 h
  split at h
  · rename_i known
    cases h
    simpa using known
  · exact (violate_ne_ok.1 h).elim

mutual

/-- The rules hold throughout what is built from an expression. -/
theorem lawful_expr (rules : Rules) : (σ : Surface.Expr) → {e : Expr} → expr rules σ = .ok e →
    (Node.expr e).Everywhere (Node.Lawful rules)
  | .boolean r value, e, h => by
    cases h
    exact .intro trivial LawfulNodes.nil
  | .null r, e, h => by
    cases h
    exact .intro trivial LawfulNodes.nil
  | .number n, e, h => by
    obtain ⟨value, hvalue, rfl⟩ := by simpa [expr] using h
    exact lawful_number (numberValue_small hvalue)
  | .string r parts, e, h => by
    obtain ⟨raw, hraw, parts', hparts, rfl⟩ := by simpa [expr] using h
    refine .intro trivial ?_
    show LawfulNodes rules (partNodes parts')
    rw [Parser.decodeParts_nodes hparts]
    exact lawful_rawParts rules parts hraw
  | .array r items, e, h => by
    obtain ⟨es, hes, rfl⟩ := by simpa [expr] using h
    exact .intro trivial (lawful_exprs rules items hes)
  | .pair r left right, e, h => by
    obtain ⟨a, ha, b, hb, rfl⟩ := by simpa [expr] using h
    exact .intro trivial (LawfulNodes.cons_iff.2 ⟨lawful_expr rules left ha,
      LawfulNodes.cons_iff.2 ⟨lawful_expr rules right hb, .nil⟩⟩)
  | .group r inner, e, h => by
    obtain ⟨a, ha, rfl⟩ := by simpa [expr] using h
    exact lawful_withRange (lawful_expr rules inner ha)
  | .map r items, e, h => by
    obtain ⟨es, hes, rfl⟩ := by simpa [expr] using h
    exact .intro trivial (lawful_pairs rules items hes)
  | .choice r a b c, e, h => by
    obtain ⟨a', ha, b', hb, c', hc, rfl⟩ := by simpa [expr] using h
    exact .intro trivial (LawfulNodes.cons_iff.2 ⟨lawful_expr rules a ha,
      LawfulNodes.cons_iff.2 ⟨lawful_expr rules b hb,
        LawfulNodes.cons_iff.2 ⟨lawful_expr rules c hc, .nil⟩⟩⟩)
  | .apply r function arguments, e, h => by
    obtain ⟨es, hes, rfl⟩ := by simpa [expr] using h
    exact .intro trivial (lawful_exprs rules arguments hes)
  | .struct r name ms, e, h => by
    obtain ⟨es, hes, typeName, -, rfl⟩ := by simpa [expr] using h
    exact .intro trivial (lawful_members rules ms hes)
  | .name w, e, h => by
    obtain ⟨u, -, rfl⟩ := by simpa [expr] using h
    exact .intro trivial LawfulNodes.nil
  | .access subject accessors, e, h => by
    obtain ⟨a, ha, as, has, rfl⟩ := by simpa [expr] using h
    exact lawful_applyAccesses _ _ (lawful_expr rules subject ha)
      (lawful_accesses rules accessors has)
  | .signed signs operand, e, h => by
    obtain ⟨a, ha, rfl⟩ := by simpa [expr] using h
    exact lawful_applySigns _ _ (lawful_expr rules operand ha)
  | .chain first rest, e, h => by
    obtain ⟨a, ha, xs, hxs, rfl⟩ := by simpa [expr] using h
    exact lawful_nestChain _ (lawful_expr rules first ha) (lawful_operands rules rest hxs)

theorem lawful_exprs (rules : Rules) : (σs : List Surface.Expr) → {es : List Expr} →
    exprs rules σs = .ok es → LawfulNodes rules (es.map .expr)
  | [], es, h => by
    cases h
    exact .nil
  | σ :: σs, es, h => by
    obtain ⟨e, he, rest, hrest, rfl⟩ := by simpa [exprs] using h
    exact LawfulNodes.cons_iff.2 ⟨lawful_expr rules σ he, lawful_exprs rules σs hrest⟩

theorem lawful_pairs (rules : Rules) : (σs : List (Surface.Expr × Surface.Expr)) →
    {es : List (Expr × Expr)} → pairs rules σs = .ok es →
    LawfulNodes rules (es.flatMap fun item => [.expr item.1, .expr item.2])
  | [], es, h => by
    cases h
    exact .nil
  | (key, value) :: σs, es, h => by
    obtain ⟨k, hk, v, hv, rest, hrest, rfl⟩ := by simpa [pairs] using h
    exact LawfulNodes.cons_iff.2 ⟨lawful_expr rules key hk,
      LawfulNodes.cons_iff.2 ⟨lawful_expr rules value hv, lawful_pairs rules σs hrest⟩⟩

theorem lawful_members (rules : Rules) : (ms : List (Surface.Key × Surface.Expr)) →
    {es : List (Text × Expr)} → members rules ms = .ok es → LawfulNodes rules (memberNodes es)
  | [], es, h => by
    cases h
    exact .nil
  | (.quoted q, value) :: ms, es, h => by
    obtain ⟨key, -, e, he, rest, hrest, rfl⟩ := by simpa [members] using h
    exact LawfulNodes.cons_iff.2 ⟨lawful_expr rules value he, lawful_members rules ms hrest⟩
  | (.word w, value) :: ms, es, h => by
    obtain ⟨e, he, -, rest, hrest, rfl⟩ := by simpa [members] using h
    exact LawfulNodes.cons_iff.2 ⟨lawful_expr rules value he, lawful_members rules ms hrest⟩

theorem lawful_operands (rules : Rules) : (links : List (BinaryOp × Surface.Expr)) →
    {xs : List (BinaryOp × Placed)} → operands rules links = .ok xs →
    LawfulNodes rules (xs.map fun link => .expr link.2.2)
  | [], xs, h => by
    cases h
    exact .nil
  | (op, σ) :: links, xs, h => by
    obtain ⟨e, he, rest, hrest, rfl⟩ := by simpa [operands] using h
    exact LawfulNodes.cons_iff.2 ⟨lawful_expr rules σ he, lawful_operands rules links hrest⟩

theorem lawful_accesses (rules : Rules) : (accessors : List Surface.Accessor) →
    {as : List Access} → accesses rules accessors = .ok as →
    LawfulNodes rules (as.flatMap Access.nodes)
  | [], as, h => by
    cases h
    exact .nil
  | .index r i :: accessors, as, h => by
    obtain ⟨e, he, rest, hrest, rfl⟩ := by simpa [accesses] using h
    exact LawfulNodes.cons_iff.2 ⟨lawful_expr rules i he, lawful_accesses rules accessors hrest⟩
  | .member r name :: accessors, as, h => by
    obtain ⟨-, rest, hrest, rfl⟩ := by simpa [accesses] using h
    have others := lawful_accesses rules accessors hrest
    exact others

theorem lawful_rawParts (rules : Rules) : (parts : List Surface.Part) → {raw : List RawPart} →
    rawParts rules parts = .ok raw → LawfulNodes rules (Parser.rawHoles raw)
  | [], raw, h => by
    cases h
    exact .nil
  | .text r cs :: parts, raw, h => by
    obtain ⟨rest, hrest, rfl⟩ := by simpa [rawParts] using h
    have others := lawful_rawParts rules parts hrest
    exact others
  | .placeholder p :: parts, raw, h => by
    obtain ⟨p', hp, rest, hrest, rfl⟩ := by simpa [rawParts] using h
    exact LawfulNodes.cons_iff.2 ⟨lawful_placeholder rules p hp, lawful_rawParts rules parts hrest⟩

theorem lawful_placeholder (rules : Rules) : (p : Surface.Placeholder) → {p' : Placeholder} →
    placeholder rules p = .ok p' → (Node.placeholder p').Everywhere (Node.Lawful rules)
  | .mk r options σ, p', h => by
    obtain ⟨entries, hentries, e, he, distinct, hdistinct, rfl⟩ := by simpa [placeholder] using h
    refine .intro ?_ (LawfulNodes.cons_iff.2 ⟨lawful_expr rules σ he, .nil⟩)
    show ∀ option ∈ distinct, option.1 ∈ optionNames
    rw [distinct_eq_ok hdistinct, List.nil_append, List.forall_mem_map]
    exact forall_of_forall₂ (mapM_eq_ok.1 hentries) fun o _ entry => placeholderOption_name

end

end Build

end Wdl
