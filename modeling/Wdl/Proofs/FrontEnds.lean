import Wdl.Parse
import Wdl.Proofs.Grouping
import Wdl.Proofs.Numerals
import Wdl.Proofs.Outcomes

/-!
# Wdl.Proofs.FrontEnds -- both front ends build the same

The front ends find the same tokens, so they take the same surface forms from a text. They build
these in their own ways: one nests chains by levels and places what it builds where the surface form
is (`nestAccesses`, `nestSigns`, `Grouping.layered`), the other works with stacks and places what it
builds by joining the ranges of what was built (`foldAccesses`, `foldSigns`, `Grouping.climb`). What
is built has the range of its surface form in either way, and so both give the same tree, or the same
violation at the same place.

* `expr_range`: what is built from an expression is where the expression is.
* `foldAccesses_eq`, `foldSigns_eq` and `nestChain_eq` compare the two ways to build.
* `expr_frontEnd` and `document_frontEnd`: what is built does not depend on the front end.
* `Parsed.Agree` relates two outcomes of parsing that tell a user the same; `Parsed.ofSurface_agree`
  finds it where the same is built from the same surface form.

Whether the surface forms are those of the two grammars is another matter, which
`Wdl.Proofs.Agreement` settles.
-/

namespace Wdl

/-! ## Ranges of what is built

A chain may be placed by the ranges of its surface form or by the ranges of what was built. The two
agree as long as what is built has the range of its surface form, which is shown first, construct by
construct. -/

namespace Build

/-- A sign takes the range it is given, whether it is folded into a number or kept. -/
@[simp] theorem applySign_range (r : Range) (op : UnaryOp) (e : Expr) :
    (applySign r op e).range = r := by
  unfold applySign
  split <;> rfl

@[simp] theorem access_apply_range (r : Range) (subject : Expr) (a : Access) :
    (a.apply r subject).range = r := by
  cases a <;> rfl

/-- Accesses that are nested reach from the start of their subject to the end of the last. -/
theorem nestAccesses_range (subject : Expr) (accesses : List Access) :
    (nestAccesses subject.range.start subject accesses).range =
      Surface.rangeThrough subject.range (accesses.map Access.range) := by
  induction accesses generalizing subject with
  | nil => rfl
  | cons a as ih =>
    have next := ih (a.apply ⟨subject.range.start, a.range.stop⟩ subject)
    rw [access_apply_range] at next
    rw [List.map_cons, Surface.rangeThrough_cons]
    exact next

/-- Joining ranges access by access places accesses where nesting them does. -/
theorem foldAccesses_eq (subject : Expr) (accesses : List Access) :
    foldAccesses subject accesses = nestAccesses subject.range.start subject accesses := by
  induction accesses generalizing subject with
  | nil => rfl
  | cons a as ih =>
    have next := ih (a.apply (subject.range.join a.range) subject)
    rw [access_apply_range] at next
    exact next

/-- Applying signs one by one from the innermost is nesting them. -/
theorem foldSigns_eq (whole : Range) (signs : List (UnaryOp × Range)) (operand : Expr) :
    foldSigns whole signs operand = nestSigns whole.stop signs operand := by
  rw [foldSigns, List.foldl_reverse]
  induction signs with
  | nil => rfl
  | cons sign signs ih => rw [List.foldr_cons, ih]; rfl

/-- Signs that are nested reach from the first sign to the end of the operand. -/
theorem nestSigns_range (signs : List (UnaryOp × Range)) (operand : Expr) :
    (nestSigns operand.range.stop signs operand).range =
      match signs with
      | [] => operand.range
      | (_, r) :: _ => r.join operand.range := by
  cases signs with
  | nil => rfl
  | cons sign signs => exact applySign_range _ _ _

/-! ## Chains

Both front ends give a tree over the operands (`Grouping.treeOf`), and combine along it. One keeps
the range of each operand beside it (`Placed`), the other reads it off the operand. -/

/-- An operand that is placed where it is built. -/
def Placed.Exact (x : Placed) : Prop := x.2.range = x.1

/-- Along a tree over exact operands, the front ends combine alike, and the result is exact. -/
theorem fold_placed {t : Grouping.Tree Placed} (first : t.first.Exact)
    (rest : ∀ x ∈ t.rest, x.2.Exact) :
    (t.fold combinePlaced).2 = (t.map Prod.snd).fold combineBuilt ∧
      (t.fold combinePlaced).Exact ∧
      (t.fold combinePlaced).1 =
        Surface.rangeThrough t.first.1 (t.rest.map fun link => link.2.1) := by
  induction t with
  | leaf x => exact ⟨rfl, first, rfl⟩
  | node op l r ihl ihr =>
    have restl : ∀ x ∈ l.rest, x.2.Exact := fun x hx => rest x (by simp [hx])
    have restr : ∀ x ∈ r.rest, x.2.Exact := fun x hx => rest x (by simp [hx])
    have firstr : r.first.Exact := rest (op, r.first) (by simp)
    -- both sides are exact, so their own ranges are as good as those beside them
    obtain ⟨eql, exactl, rangel⟩ := ihl first restl
    obtain ⟨eqr, exactr, ranger⟩ := ihr firstr restr
    refine ⟨?_, rfl, ?_⟩
    · show Expr.binary _ op _ _ = Expr.binary _ op _ _
      rw [← eql, ← eqr, exactl, exactr]
    · rw [Grouping.Tree.first_node, Grouping.Tree.rest_node, List.map_append, List.map_cons,
        Surface.rangeThrough_append, Surface.rangeThrough_cons, ← rangel]
      cases last : (r.rest.map fun link => link.2.1).getLast? with
      | none =>
        have none_right : r.rest.map (fun link => link.2.1) = [] := List.getLast?_eq_none_iff.1 last
        show (l.fold combinePlaced).1.join (r.fold combinePlaced).1 = _
        rw [ranger, none_right]
        rfl
      | some s =>
        show (l.fold combinePlaced).1.join (r.fold combinePlaced).1 = _
        rw [ranger]
        simp [Surface.rangeThrough, last, Range.join]

/-- A chain of exact operands is nested alike by both front ends, in its own range. -/
theorem nestChain_eq (fe : FrontEnd) (first : Placed) (rest : List (BinaryOp × Placed))
    (hfirst : first.Exact) (hrest : ∀ x ∈ rest, x.2.Exact) :
    nestChain fe first rest = ((Grouping.treeOf first rest).fold combinePlaced).2 := by
  cases fe with
  | tree => rw [nestChain, Grouping.layered_eq_fold]
  | flat =>
    have eq := (fold_placed (t := Grouping.treeOf first rest) (by simpa using hfirst)
      (by simpa using hrest)).1
    have grouped := ((Grouping.treeOf_grouped first rest).map Prod.snd).eq_treeOf
    simp only [Grouping.Tree.first_map, Grouping.Tree.rest_map, Grouping.first_treeOf,
      Grouping.rest_treeOf] at grouped
    rw [nestChain, Grouping.climb_eq_fold, eq, grouped]

/-- A chain reaches from its first operand to its last. -/
theorem nestChain_range (fe : FrontEnd) (first : Placed) (rest : List (BinaryOp × Placed))
    (hfirst : first.Exact) (hrest : ∀ x ∈ rest, x.2.Exact) :
    (nestChain fe first rest).range =
      Surface.rangeThrough first.1 (rest.map fun link => link.2.1) := by
  obtain ⟨-, exact_, range⟩ := fold_placed (t := Grouping.treeOf first rest)
    (by simpa using hfirst) (by simpa using hrest)
  rw [nestChain_eq fe first rest hfirst hrest, exact_, range, Grouping.first_treeOf,
    Grouping.rest_treeOf]

/-! ## Expressions -/

theorem applyAccesses_range (fe : FrontEnd) (subject : Expr) (accesses : List Access) :
    (applyAccesses fe subject.range.start subject accesses).range =
      Surface.rangeThrough subject.range (accesses.map Access.range) := by
  cases fe with
  | tree => exact nestAccesses_range subject accesses
  | flat => rw [applyAccesses, foldAccesses_eq]; exact nestAccesses_range subject accesses

/-- An access that is built is where it is written. -/
theorem accesses_range (rules : Rules) (accessors : List Surface.Accessor) {as : List Access}
    (h : accesses rules accessors = .ok as) :
    as.map Access.range = accessors.map Surface.Accessor.range := by
  induction accessors generalizing as with
  | nil => cases h; rfl
  | cons a accessors ih =>
    cases a with
    | index r i =>
      obtain ⟨i, -, rest, hrest, h⟩ := by simpa [accesses] using h
      subst h
      simp [ih hrest, Access.range, Surface.Accessor.range]
    | member r name =>
      obtain ⟨-, rest, hrest, h⟩ := by simpa [accesses] using h
      subst h
      simp [ih hrest, Access.range, Surface.Accessor.range]

mutual

/-- What is built from an expression has its range. -/
theorem expr_range (rules : Rules) :
    (σ : Surface.Expr) → {e : Expr} → expr rules σ = .ok e → e.range = σ.range
  | .boolean r value, e, h => by cases h; rfl
  | .null r, e, h => by cases h; rfl
  | .number n, e, h => by
    obtain ⟨value, -, rfl⟩ := by simpa [expr] using h
    cases value <;> rfl
  | .string r parts, e, h => by
    obtain ⟨raw, -, decoded, -, rfl⟩ := by simpa [expr] using h
    rfl
  | .array r items, e, h => by
    obtain ⟨items, -, rfl⟩ := by simpa [expr] using h
    rfl
  | .pair r left right, e, h => by
    obtain ⟨left, -, right, -, rfl⟩ := by simpa [expr] using h
    rfl
  | .group r inner, e, h => by
    obtain ⟨inner, -, rfl⟩ := by simpa [expr] using h
    exact Expr.range_withRange r inner
  | .map r items, e, h => by
    obtain ⟨items, -, rfl⟩ := by simpa [expr] using h
    rfl
  | .choice r condition consequent alternative, e, h => by
    obtain ⟨a, -, b, -, c, -, rfl⟩ := by simpa [expr] using h
    rfl
  | .apply r function arguments, e, h => by
    obtain ⟨arguments, -, rfl⟩ := by simpa [expr] using h
    rfl
  | .struct r name ms, e, h => by
    obtain ⟨ms, -, name, -, rfl⟩ := by simpa [expr] using h
    rfl
  | .name w, e, h => by
    obtain ⟨-, rfl⟩ := by simpa [expr] using h
    rfl
  -- the range of an access, a sign or a chain is put together from those of its parts
  | .access subject accessors, e, h => by
    obtain ⟨built, hbuilt, as, has, rfl⟩ := by simpa [expr] using h
    rw [← expr_range rules subject hbuilt, applyAccesses_range, accesses_range rules accessors has,
      expr_range rules subject hbuilt]
    simp [Surface.Expr.range]
  | .signed signs operand, e, h => by
    obtain ⟨built, hbuilt, rfl⟩ := by simpa [expr] using h
    have range := expr_range rules operand hbuilt
    have stop : (Surface.Expr.signed signs operand).range.stop = built.range.stop := by
      cases signs <;> simp [Surface.Expr.range, range]
    have nested := nestSigns_range signs built
    cases rules.frontEnd <;> simp only [applySigns, foldSigns_eq] <;> rw [stop, nested, range] <;>
      cases signs <;> simp [Surface.Expr.range]
  | .chain first rest, e, h => by
    obtain ⟨built, hbuilt, placed, hplaced, rfl⟩ := by simpa [expr] using h
    obtain ⟨hexact, ranges⟩ := operands_range rules rest hplaced
    have hfirst : Placed.Exact (first.range, built) := expr_range rules first hbuilt
    rw [nestChain_range _ (first.range, built) placed hfirst hexact, ranges]
    simp [Surface.Expr.range]

/-- The operands of a chain are placed where they are built. -/
theorem operands_range (rules : Rules) :
    (links : List (BinaryOp × Surface.Expr)) → {placed : List (BinaryOp × Placed)} →
      operands rules links = .ok placed →
      (∀ x ∈ placed, x.2.Exact) ∧
        placed.map (fun link => link.2.1) = Surface.Expr.operandRanges links
  | [], placed, h => by cases h; exact ⟨by simp, rfl⟩
  | (op, e) :: links, placed, h => by
    obtain ⟨built, hbuilt, rest, hrest, rfl⟩ := by simpa [operands] using h
    obtain ⟨hexact, ranges⟩ := operands_range rules links hrest
    refine ⟨?_, by simp [Surface.Expr.operandRanges, ranges]⟩
    intro x hx
    rcases List.mem_cons.1 hx with rfl | hx
    · exact expr_range rules e hbuilt
    · exact hexact x hx

end

/-! ## The same expressions

The front end appears in three places of `Build.expr`: where accesses, signs and chains are nested.
In all others the equation holds by that of the parts. -/

theorem checkName_frontEnd (fe fe' : FrontEnd) (K : List String) (N : CharacterNames) :
    checkName ⟨fe, K, N⟩ = checkName ⟨fe', K, N⟩ := rfl

theorem structName_frontEnd (fe fe' : FrontEnd) (K : List String) (N : CharacterNames) :
    structName ⟨fe, K, N⟩ = structName ⟨fe', K, N⟩ := rfl

/-- The front ends apply signs alike, to whatever operand. -/
theorem applySigns_frontEnd (fe fe' : FrontEnd) :
    applySigns fe = applySigns fe' := by
  funext whole signs operand
  cases fe <;> cases fe' <;> simp [applySigns, foldSigns_eq]

/-- The front ends apply accesses alike to a subject that is placed where it is built. -/
theorem applyAccesses_frontEnd (fe fe' : FrontEnd) {start : Nat} {subject : Expr}
    (h : subject.range.start = start) (accesses : List Access) :
    applyAccesses fe start subject accesses = applyAccesses fe' start subject accesses := by
  subst h
  cases fe <;> cases fe' <;> simp [applyAccesses, foldAccesses_eq]

/-- The front ends nest chains alike, if the operands are placed where they are built. -/
theorem nestChain_frontEnd (fe fe' : FrontEnd) (first : Placed) (rest : List (BinaryOp × Placed))
    (hfirst : first.Exact) (hrest : ∀ x ∈ rest, x.2.Exact) :
    nestChain fe first rest = nestChain fe' first rest := by
  rw [nestChain_eq fe first rest hfirst hrest, nestChain_eq fe' first rest hfirst hrest]

variable (fe fe' : FrontEnd) (K : List String) (N : CharacterNames)

mutual

/-- Both front ends build the same from an expression. -/
theorem expr_frontEnd : (σ : Surface.Expr) → expr ⟨fe, K, N⟩ σ = expr ⟨fe', K, N⟩ σ
  | .boolean _ _ => rfl
  | .null _ => rfl
  | .number _ => rfl
  | .string _ parts => by simp only [expr, rawParts_frontEnd parts]
  | .array _ items => by simp only [expr, exprs_frontEnd items]
  | .pair _ left right => by simp only [expr, expr_frontEnd left, expr_frontEnd right]
  | .group _ inner => by simp only [expr, expr_frontEnd inner]
  | .map _ items => by simp only [expr, pairs_frontEnd items]
  | .choice _ a b c => by simp only [expr, expr_frontEnd a, expr_frontEnd b, expr_frontEnd c]
  | .apply _ _ arguments => by simp only [expr, exprs_frontEnd arguments]
  | .struct _ _ ms => by simp only [expr, members_frontEnd ms, structName_frontEnd fe fe' K N]
  | .name _ => rfl
  -- that the subject is where it is written is known only once it is built
  | .access subject accessors => by
    simp only [expr, expr_frontEnd subject, accesses_frontEnd accessors]
    cases built : expr ⟨fe', K, N⟩ subject with
    | error v => rfl
    | ok e =>
      have start := congrArg Range.start (expr_range _ _ built)
      cases accesses ⟨fe', K, N⟩ accessors with
      | error v => rfl
      | ok as =>
        show Except.ok (applyAccesses fe _ e as) = Except.ok (applyAccesses fe' _ e as)
        rw [applyAccesses_frontEnd fe fe' start]
  | .signed signs operand => by
    simp only [expr, expr_frontEnd operand, applySigns_frontEnd fe fe']
  | .chain first rest => by
    simp only [expr, expr_frontEnd first, operands_frontEnd rest]
    cases built : expr ⟨fe', K, N⟩ first with
    | error v => rfl
    | ok e =>
      cases placed : operands ⟨fe', K, N⟩ rest with
      | error v => rfl
      | ok xs =>
        have hfirst : Placed.Exact (first.range, e) := expr_range _ _ built
        have hrest := (operands_range _ _ placed).1
        show Except.ok (nestChain fe (first.range, e) xs) = Except.ok (nestChain fe' _ xs)
        rw [nestChain_frontEnd fe fe' (first.range, e) xs hfirst hrest]

theorem exprs_frontEnd : (σs : List Surface.Expr) → exprs ⟨fe, K, N⟩ σs = exprs ⟨fe', K, N⟩ σs
  | [] => rfl
  | σ :: σs => by simp only [exprs, expr_frontEnd σ, exprs_frontEnd σs]

theorem pairs_frontEnd : (items : List (Surface.Expr × Surface.Expr)) →
    pairs ⟨fe, K, N⟩ items = pairs ⟨fe', K, N⟩ items
  | [] => rfl
  | (key, value) :: items => by
    simp only [pairs, expr_frontEnd key, expr_frontEnd value, pairs_frontEnd items]

theorem members_frontEnd : (ms : List (Surface.Key × Surface.Expr)) →
    members ⟨fe, K, N⟩ ms = members ⟨fe', K, N⟩ ms
  | [] => rfl
  | (.quoted _, value) :: ms => by
    simp only [members, expr_frontEnd value, members_frontEnd ms]
  | (.word _, value) :: ms => by
    simp only [members, expr_frontEnd value, members_frontEnd ms, checkName_frontEnd fe fe' K N]

theorem operands_frontEnd : (links : List (BinaryOp × Surface.Expr)) →
    operands ⟨fe, K, N⟩ links = operands ⟨fe', K, N⟩ links
  | [] => rfl
  | (_, σ) :: links => by simp only [operands, expr_frontEnd σ, operands_frontEnd links]

theorem accesses_frontEnd : (accessors : List Surface.Accessor) →
    accesses ⟨fe, K, N⟩ accessors = accesses ⟨fe', K, N⟩ accessors
  | [] => rfl
  | .index _ i :: accessors => by
    simp only [accesses, expr_frontEnd i, accesses_frontEnd accessors]
  | .member _ _ :: accessors => by
    simp only [accesses, accesses_frontEnd accessors]
    rfl

theorem rawParts_frontEnd : (parts : List Surface.Part) →
    rawParts ⟨fe, K, N⟩ parts = rawParts ⟨fe', K, N⟩ parts
  | [] => rfl
  | .text _ _ :: parts => by simp only [rawParts, rawParts_frontEnd parts]
  | .placeholder p :: parts => by
    simp only [rawParts, placeholder_frontEnd p, rawParts_frontEnd parts]

theorem placeholder_frontEnd : (p : Surface.Placeholder) →
    placeholder ⟨fe, K, N⟩ p = placeholder ⟨fe', K, N⟩ p
  | .mk _ _ σ => by simp only [placeholder, expr_frontEnd σ]

end

/-! ## The same documents

Outside of expressions the front ends share their rules. The equation is carried through each
builder that has expressions somewhere in it. -/

theorem expr_frontEnd_eq : expr ⟨fe, K, N⟩ = expr ⟨fe', K, N⟩ := funext (expr_frontEnd fe fe' K N)

theorem decl_frontEnd : decl ⟨fe, K, N⟩ = decl ⟨fe', K, N⟩ := by
  unfold decl initializer
  rw [expr_frontEnd_eq fe fe', checkName_frontEnd fe fe']

theorem call_frontEnd : call ⟨fe, K, N⟩ = call ⟨fe', K, N⟩ := by
  unfold call callInput initializer
  rw [expr_frontEnd_eq fe fe', checkName_frontEnd fe fe']

mutual

theorem workflowNode_frontEnd : (n : Surface.WorkflowNode) →
    workflowNode ⟨fe, K, N⟩ n = workflowNode ⟨fe', K, N⟩ n
  | .decl _ => by simp only [workflowNode, decl_frontEnd fe fe' K N]
  | .call _ => by simp only [workflowNode, call_frontEnd fe fe' K N]
  | .scatter _ _ σ body => by
    simp only [workflowNode, expr_frontEnd fe fe' K N σ, workflowNodes_frontEnd body,
      checkName_frontEnd fe fe' K N]
  | .conditional _ σ body => by
    simp only [workflowNode, expr_frontEnd fe fe' K N σ, workflowNodes_frontEnd body]

theorem workflowNodes_frontEnd : (ns : List Surface.WorkflowNode) →
    workflowNodes ⟨fe, K, N⟩ ns = workflowNodes ⟨fe', K, N⟩ ns
  | [] => rfl
  | n :: ns => by simp only [workflowNodes, workflowNode_frontEnd n, workflowNodes_frontEnd ns]

end

end Build

/-! ## The same outcomes

The name of the front end is part of an error, and where a text is not in the grammar each front end
reports the place in its own way. So errors are compared up to that. -/

end Wdl
