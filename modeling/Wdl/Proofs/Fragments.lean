import Mathlib.Data.List.Induction
import Wdl.Ast.Node
import Wdl.Proofs.FrontEnds
import Wdl.Proofs.Script

/-!
# Wdl.Proofs.Fragments -- every node of an expression is written by a part of its steps

What is built from a script is a tree of nodes. Each of its nodes is again built from a script: that
of a contiguous part of the steps, of which those of the children are parts in turn, one behind the
other.

* `Written rules n xs` says that the steps `xs` write the node `n`, and parts of them its children.
  `Spread rules first ns xs` says the latter: the nodes `ns` are written by parts of `xs`, in order,
  with gaps between them. In front of a part stands a token behind which an expression is looked for
  (`Opens`), unless the part starts where the whole does.
* Lists are spread by `Separated.spread`, and the parts of strings by the nodes among them.
* Prefix operators and accesses are written by the ends and the starts of their lists, and what a
  chain nests by its stretches; so for these the induction is on the list or the tree of operands
  and not on the script.
* `Parser.Script.written` is the result: what is built from a script is written by its steps.
-/

namespace Wdl.Parser

/-! ## Nodes and the steps that write them

Both relations are inductive and refer to each other, since a node is written only if all that is
below it is. -/

/-- What is looked for in front of an expression inside another. -/
def openings : List Expect :=
  [Expect.expr, Expect.exprOrParen, Expect.exprOrBracket, Expect.exprOrBrace, Expect.afterNumber,
    Expect.afterQuoted]

/-- Steps that an expression may stand behind. Nothing need stand in front of the first one. -/
def Opens (first : Bool) (gap : List Step) : Prop :=
  match gap.getLast? with
  | none => first = true
  | some x => x.after ∈ openings

mutual

/-- The steps write the node, and parts of them its children. -/
inductive Written (rules : Rules) : Node → List Step → Prop
  | expr {level : Level} {place : Place} {σ : Surface.Expr} {e : Expr} {xs : List Step} :
      Script level place σ xs → Build.expr rules σ = .ok e → Spread rules true e.children xs →
      Written rules (.expr e) xs
  | placeholder {p : Placeholder} {xs : List Step} : p.range = spanOf xs → xs ≠ [] →
      Spread rules true [.expr p.expr] xs → Written rules (.placeholder p) xs

/-- The nodes are written by parts of the steps, one behind the other with gaps between them; the
first may have none in front of it. -/
inductive Spread (rules : Rules) : Bool → List Node → List Step → Prop
  | nil {first : Bool} (xs : List Step) : Spread rules first [] xs
  | cons {first : Bool} {n : Node} {ns : List Node} {gap ys zs : List Step} : Opens first gap →
      Written rules n ys → Spread rules false ns zs →
      Spread rules first (n :: ns) (gap ++ (ys ++ zs))

end

variable {rules : Rules}

/-! ## Parts behind each other -/

/-- A token behind which an expression is looked for may stand in front of one. -/
theorem Opens.single {t : Token} {after : Expect} (h : after ∈ openings) {first : Bool} :
    Opens first [⟨t, after⟩] := h

/-- What stands further in front does not matter. -/
theorem Opens.append {xs gap : List Step} (h : Opens false gap) (first : Bool) :
    Opens first (xs ++ gap) := by
  unfold Opens at *
  rw [List.getLast?_append]
  cases last : gap.getLast? with
  | none => rw [last] at h; cases h
  | some x => rw [last] at h; exact h

/-- A gap may be empty behind steps that an expression may stand behind. -/
theorem Opens.prepend {xs gap : List Step} {b : Bool} (hx : Opens false xs) (h : Opens b gap)
    (first : Bool) : Opens first (xs ++ gap) := by
  cases empty : gap.getLast? with
  | none =>
    rw [List.getLast?_eq_none_iff] at empty
    subst empty
    simpa using @Opens.append [] xs hx first
  | some x =>
    refine Opens.append ?_ first
    unfold Opens at *
    rw [empty] at h ⊢
    exact h

/-- Parts behind a gap of their own may stand behind anything. -/
theorem Spread.behind {ns : List Node} {ys : List Step} (h : Spread rules false ns ys)
    (xs : List Step) (first : Bool) : Spread rules first ns (xs ++ ys) := by
  cases h with
  | nil => exact .nil _
  | cons opens n ns =>
    rw [← List.append_assoc]
    exact .cons (opens.append first) n ns

/-- Parts may stand behind what an expression may stand behind. -/
theorem Spread.after {b : Bool} {ns : List Node} {ys xs : List Step} (h : Spread rules b ns ys)
    (hx : Opens false xs) (first : Bool) : Spread rules first ns (xs ++ ys) := by
  cases h with
  | nil => exact .nil _
  | cons opens n ns =>
    rw [← List.append_assoc]
    exact .cons (hx.prepend opens first) n ns

/-- Parts behind parts, with a gap of their own, are parts of the whole. -/
theorem Spread.append {first : Bool} {ns ms : List Node} {xs ys : List Step}
    (hx : Spread rules first ns xs) (hy : Spread rules false ms ys) :
    Spread rules first (ns ++ ms) (xs ++ ys) := by
  induction ns generalizing first xs with
  | nil => exact hy.behind xs first
  | cons n ns ih =>
    cases hx with
    | cons opens hn hns =>
      rw [List.append_assoc, List.append_assoc]
      exact .cons opens hn (ih hns)

/-- Anything may stand behind parts. -/
theorem Spread.tail {first : Bool} {ns : List Node} {xs : List Step}
    (h : Spread rules first ns xs) (ys : List Step) : Spread rules first ns (xs ++ ys) := by
  simpa using h.append (.nil ys)

/-- A node is spread over the steps that write it. -/
theorem Written.spread_single {n : Node} {xs : List Step} (h : Written rules n xs) :
    Spread rules true [n] xs := by
  simpa using @Spread.cons rules true n [] [] xs [] rfl h (.nil [])

/-- The children of an expression are spread over the steps that write it. -/
theorem Written.spread {e : Expr} {xs : List Step} (h : Written rules (.expr e) xs) :
    Spread rules true e.children xs := by
  cases h
  assumption

/-- The nodes of items with commas between them. -/
theorem More.spread {after : Expect} {items : List (List Step)} {xs : List Step} {b : Bool}
    (h : More after items xs) (opens : b = true → after ∈ openings) {nss : List (List Node)}
    (each : List.Forall₂ (Spread rules b) nss items) : Spread rules false nss.flatten xs := by
  induction h generalizing nss with
  | nil => cases each; exact .nil _
  | trailing comma _ => cases each; exact .nil _
  | @cons item items xs comma _ _ ih =>
    obtain ⟨ns, nss, first, rest, rfl⟩ := List.forall₂_cons_right_iff.1 each
    rw [List.flatten_cons, ← List.cons_append]
    refine Spread.append ?_ (ih rest)
    cases b with
    | true => exact first.after (Opens.single (opens rfl) : Opens false [⟨comma, after⟩]) false
    | false => exact first.behind [⟨comma, after⟩] false

/-- The nodes of a list of items are spread over it. -/
theorem Separated.spread {after : Expect} {items : List (List Step)} {xs : List Step} {b : Bool}
    (h : Separated after items xs) (opens : b = true → after ∈ openings) {nss : List (List Node)}
    (each : List.Forall₂ (Spread rules b) nss items) : Spread rules b nss.flatten xs := by
  cases h with
  | nil => cases each; exact .nil _
  | cons more =>
    obtain ⟨ns, nss, first, rest, rfl⟩ := List.forall₂_cons_right_iff.1 each
    exact first.append (more.spread opens rest)

/-! ## Children of what is built

What has no text of its own in a script is built from its parts: signs that are folded have no
children, ranges do not matter, and literal text among the parts of a string is no node. -/

/-- Where an expression stands does not matter to its children. -/
theorem children_withRange (r : Range) (e : Expr) : (e.withRange r).children = e.children := by
  cases e <;> rfl

/-- A number has no children. -/
theorem children_number (r : Range) (v : Build.NumberValue) : (v.expr r).children = [] := by
  cases v <;> rfl

/-- A prefix operator is applied to its operand, or becomes part of a number. -/
theorem children_applySign (r : Range) (op : UnaryOp) (e : Expr) :
    (Build.applySign r op e).children = [] ∨ (Build.applySign r op e).children = [.expr e] := by
  unfold Build.applySign
  split <;> simp [Expr.children]

/-- The placeholders among parts that are built. -/
def rawHoles (raw : List Build.RawPart) : List Node :=
  raw.filterMap fun part => match part with
    | .text _ _ => none
    | .placeholder p => some (.placeholder p)

theorem decodeParts_nodes {N : CharacterNames} {raw : List Build.RawPart} {parts : List Part}
    (h : Build.decodeParts N raw = .ok parts) : partNodes parts = rawHoles raw := by
  induction raw generalizing parts with
  | nil => cases h; rfl
  | cons part raw ih =>
    cases part with
    | text r cs =>
      obtain ⟨text, -, rest, hrest, rfl⟩ := by simpa [Build.decodeParts] using h
      show partNodes rest = rawHoles raw
      exact ih hrest
    | placeholder p =>
      obtain ⟨rest, hrest, rfl⟩ := by simpa [Build.decodeParts] using h
      simpa [partNodes, placeholdersOf, rawHoles] using ih hrest

/-! ## Scripts write what is built from them -/

variable {place : Place}

/-- What is built from the expressions of some pieces is written by them, one by one. -/
theorem exprs_spread {items : List Piece} {es : List Expr}
    (each : ∀ x ∈ items, ∀ e, Build.expr rules x.expr = .ok e → Written rules (.expr e) x.steps)
    (built : Build.exprs rules (items.map Piece.expr) = .ok es) :
    List.Forall₂ (Spread rules true) (es.map fun e => [.expr e]) (items.map Piece.steps) := by
  rw [Build.exprs_eq_ok, List.forall₂_map_left_iff] at built
  rw [List.forall₂_map_left_iff, List.forall₂_map_right_iff]
  exact (forall₂_of_mem built fun x hx e he => (each x hx e he).spread_single).flip

/-- Lists of one item each, one behind the other, are the list of the items. -/
theorem flatten_singles {α : Type} (f : α → Node) (xs : List α) :
    (xs.map fun x => [f x]).flatten = xs.map f := by
  induction xs with
  | nil => rfl
  | cons x xs ih => simp [ih]

/-- A placeholder is written by its options and its expression. -/
theorem hole_written {h : Hole} {p : Placeholder}
    (script : Script .expr .placeholder h.body.expr h.body.steps)
    (body : ∀ e, Build.expr rules h.body.expr = .ok e → Written rules (.expr e) h.body.steps)
    (built : Build.placeholder rules h.placeholder = .ok p) :
    Written rules (.placeholder p) h.steps := by
  obtain ⟨options, -, e, he, options', -, rfl⟩ := by
    simpa [Hole.placeholder, Build.placeholder] using built
  refine .placeholder ?_ (by simp [Hole.steps, script.ne_nil]) ?_
  · show (⟨_, _⟩ : Range) = _
    rw [script.range_eq, Hole.steps]
    cases hopts : h.options with
    | nil => rfl
    | cons o os =>
      rw [List.flatMap_cons, spanOf_append (by simp [OptionPiece.steps]) script.ne_nil]
      rfl
  · have spread := (body e he).spread_single
    -- an expression stands behind the value of the last option, or starts the placeholder if there
    -- is none
    cases last : h.options.getLast? with
    | none =>
      rw [List.getLast?_eq_none_iff] at last
      rw [Hole.steps, last]
      exact spread
    | some o =>
      obtain ⟨os, eq⟩ := List.getLast?_eq_some_iff.1 last
      refine spread.after ?_ true
      rw [eq, List.flatMap_append, List.flatMap_singleton]
      refine @Opens.append (os.flatMap OptionPiece.steps) _ ?_ false
      show o.value.step.after ∈ openings
      cases o.value <;> simp [ValueToken.step, openings]

/-- The placeholders of a template are written one behind the other. -/
theorem parts_spread (template : Template) {parts : List PartPiece} {raw : List Build.RawPart}
    (script : ∀ p ∈ parts, ∀ x ∈ p.inner, Script .expr .placeholder x.expr x.steps)
    (each : ∀ p ∈ parts, ∀ x ∈ p.inner, ∀ e, Build.expr rules x.expr = .ok e →
      Written rules (.expr e) x.steps)
    (built : Build.rawParts rules (parts.map PartPiece.part) = .ok raw) :
    Spread rules false (rawHoles raw) (parts.flatMap (PartPiece.steps template)) := by
  induction parts generalizing raw with
  | nil => cases built; exact .nil _
  | cons part parts ih =>
    have ih := fun raw => @ih raw (fun p hp => script p (by simp [hp]))
      (fun p hp => each p (by simp [hp]))
    cases part with
    | text t =>
      obtain ⟨rest, hrest, rfl⟩ := by simpa [PartPiece.part, Build.rawParts] using built
      exact (ih rest hrest).behind [⟨t, template.afterText⟩] false
    | hole opener close h =>
      obtain ⟨p, hp, rest, hrest, rfl⟩ := by simpa [PartPiece.part, Build.rawParts] using built
      have inside : h.body ∈ (PartPiece.hole opener close h).inner := by simp [PartPiece.inner]
      have written := hole_written (script _ (by simp) h.body inside)
        (each _ (by simp) h.body inside) hp
      have front : Opens false [⟨opener, Expect.expr⟩] := Opens.single (by simp [openings])
      have back := (ih rest hrest).behind [⟨close, template.inside⟩] false
      have whole := Spread.cons front written back
      simpa [PartPiece.steps, rawHoles] using whole

/-- The last access is the outermost. -/
theorem nestAccesses_append (start : Nat) (e : Expr) (as : List Build.Access) (a : Build.Access) :
    Build.nestAccesses start e (as ++ [a]) =
      a.apply ⟨start, a.range.stop⟩ (Build.nestAccesses start e as) := by
  simp [Build.nestAccesses]

/-- Either front end applies accesses from the first to the last. -/
theorem applyAccesses_eq (fe : FrontEnd) {start : Nat} {e : Expr} (h : e.range.start = start)
    (as : List Build.Access) :
    Build.applyAccesses fe start e as = Build.nestAccesses start e as := by
  subst h
  cases fe with
  | tree => rfl
  | flat => exact Build.foldAccesses_eq e as

/-- Accesses are written by the starts of their list, each by those before it and its own steps. -/
theorem accessed_written {σ : Surface.Expr} {e : Expr} {xs : List Step} (suffixes : List Suffix)
    (closed : endsOpen σ = false) (script : Script .primary place σ xs)
    (subject : ∀ e, Build.expr rules σ = .ok e → Written rules (.expr e) xs)
    (fits : ∀ a ∈ suffixes, a.Fits)
    (inner : ∀ a ∈ suffixes, ∀ x ∈ a.inner, Script .expr .plain x.expr x.steps)
    (each : ∀ a ∈ suffixes, ∀ x ∈ a.inner, ∀ e, Build.expr rules x.expr = .ok e →
      Written rules (.expr e) x.steps)
    (ne : suffixes ≠ [])
    (built : Build.expr rules (.access σ (suffixes.map Suffix.accessor)) = .ok e) :
    Written rules (.expr e) (xs ++ suffixes.flatMap Suffix.steps) := by
  induction suffixes using List.reverseRecOn generalizing e with
  | nil => exact absurd rfl ne
  | append_singleton suffixes a ih =>
    have whole := Script.accessed (suffixes ++ [a]) ne closed script fits inner
    have parts := built
    simp only [Build.expr, Build.bind_eq_ok, Build.pure_eq_ok, List.map_append,
      Build.accesses_append] at parts
    obtain ⟨b, hb, _, ⟨as, as', has, ha, rfl⟩, eq⟩ := parts
    have start := congrArg Range.start (Build.expr_range rules σ hb)
    -- what the last access is applied to is written by the steps before it
    have before : Written rules (.expr (Build.nestAccesses σ.range.start b as))
        (xs ++ suffixes.flatMap Suffix.steps) := by
      by_cases empty : suffixes = []
      · subst empty
        cases has
        simpa [Build.nestAccesses] using subject b hb
      · refine ih (fun a ha => fits a (by simp [ha])) (fun a ha => inner a (by simp [ha]))
          (fun a ha => each a (by simp [ha])) empty ?_
        simp only [Build.expr, Build.bind_eq_ok, Build.pure_eq_ok]
        exact ⟨b, hb, as, has, applyAccesses_eq _ start as⟩
    refine .expr whole built ?_
    rw [List.flatMap_append, List.flatMap_singleton, ← List.append_assoc]
    rw [applyAccesses_eq _ start] at eq
    cases a with
    | member dot name =>
      obtain ⟨-, rfl⟩ := by simpa [Suffix.accessor, Build.accesses] using ha
      rw [nestAccesses_append] at eq
      subst eq
      exact before.spread_single.tail _
    | index bracket close i =>
      obtain ⟨i', hi, rfl⟩ := by simpa [Suffix.accessor, Build.accesses] using ha
      rw [nestAccesses_append] at eq
      subst eq
      have index := each (.index bracket close i) (by simp) i (by simp [Suffix.inner]) i' hi
      have front : Opens false [⟨bracket, Expect.expr⟩] := Opens.single (by simp [openings])
      have back := Spread.cons front index (.nil [⟨close, Expect.afterOperand⟩])
      exact before.spread_single.append back

/-- Either front end applies prefix operators from the last to the first. -/
theorem applySigns_eq (fe : FrontEnd) (r : Range) (signs : List (UnaryOp × Range)) (e : Expr) :
    Build.applySigns fe r signs e = Build.nestSigns r.stop signs e := by
  cases fe with
  | tree => rfl
  | flat => exact Build.foldSigns_eq r signs e

/-- Prefix operators are written by the ends of their list. -/
theorem signed_written {σ : Surface.Expr} {e : Expr} {xs : List Step} (signs : List Sign)
    (ops : ∀ x ∈ signs, unaryOp? x.token.kind = some x.op) (script : Script .accessed .plain σ xs)
    (operand : ∀ e, Build.expr rules σ = .ok e → Written rules (.expr e) xs) (ne : signs ≠ [])
    (built : Build.expr rules (.signed (signs.map Sign.sign) σ) = .ok e) :
    Written rules (.expr e) (signs.map Sign.step ++ xs) := by
  have stop : ∀ signs : List Sign,
      (Surface.Expr.signed (signs.map Sign.sign) σ).range.stop = σ.range.stop := by
    intro signs
    cases signs <;> simp [Surface.Expr.range, Sign.sign]
  induction signs generalizing e with
  | nil => exact absurd rfl ne
  | cons x signs ih =>
    have whole := @Script.signed .plain _ _ (x :: signs) ne ops script
    have parts := built
    simp only [Build.expr, Build.bind_eq_ok, Build.pure_eq_ok, applySigns_eq, stop] at parts
    obtain ⟨b, hb, rfl⟩ := parts
    -- what the first operator is applied to is written by the steps behind it
    have behind : Written rules (.expr (Build.nestSigns σ.range.stop (signs.map Sign.sign) b))
        (signs.map Sign.step ++ xs) := by
      by_cases empty : signs = []
      · subst empty
        exact operand b hb
      · refine ih (fun x hx => ops x (by simp [hx])) empty ?_
        simp only [Build.expr, Build.bind_eq_ok, Build.pure_eq_ok, applySigns_eq, stop]
        exact ⟨b, hb, rfl⟩
    refine .expr whole built ?_
    have front : Opens false [x.step] := Opens.single (t := x.token) (by simp [openings])
    have spread := behind.spread_single.after front true
    rcases children_applySign ⟨x.token.range.start, σ.range.stop⟩ x.op
      (Build.nestSigns σ.range.stop (signs.map Sign.sign) b) with none | one
    · show Spread rules true (Build.applySign _ x.op _).children _
      rw [none]
      exact .nil _
    · show Spread rules true (Build.applySign _ x.op _).children _
      rw [one]
      exact spread

/-! ## Chains

What a chain is built to is the fold of the tree that its operators are grouped to by precedence.
Every node of that tree is a chain on its own, made of a stretch of the links: it has a script for
that reason, and is built to the node because a grouped tree is the only one of its chain
(`tree_built`). So the induction is on the tree. -/

/-- An operand of a chain: the token of the operator in front of it, its piece, and what is built
from that. -/
structure Operand where
  sign : Token
  piece : Piece
  built : Expr

namespace Operand

/-- What is built, in the place where it is written. -/
def placed (x : Operand) : Build.Placed := (x.piece.expr.range, x.built)

/-- An operator and its operand as a link. -/
def link (x : BinaryOp × Operand) : Link := ⟨x.1, x.2.sign, x.2.piece⟩

/-- What is built from the operand is written by its steps. -/
structure Good (rules : Rules) (x : Operand) : Prop where
  built : Build.expr rules x.piece.expr = .ok x.built
  written : Written rules (.expr x.built) x.piece.steps

/-- An operand with an operator in front of it. -/
structure Linked (rules : Rules) (x : BinaryOp × Operand) : Prop where
  sign : binaryOp? x.2.sign.kind = some x.1
  script : Script .operand .plain x.2.piece.expr x.2.piece.steps
  good : x.2.Good rules

end Operand

/-- The links of a tree of operands. -/
def treeLinks (t : Grouping.Tree Operand) : List Link := t.rest.map Operand.link

/-- The steps of a tree of operands. -/
def treeSteps (t : Grouping.Tree Operand) : List Step :=
  t.first.piece.steps ++ (treeLinks t).flatMap Link.steps

/-- The operands of a tree as they are written. -/
def treeOperands (t : Grouping.Tree Operand) : List Surface.Expr :=
  t.first.piece.expr :: (treeLinks t).map fun l => l.operand.expr

/-- The steps of a tree are those of its sides around the token of its operator. -/
theorem treeSteps_node (op : BinaryOp) (l r : Grouping.Tree Operand) :
    treeSteps (.node op l r) = treeSteps l ++ ⟨r.first.sign, Expect.expr⟩ :: treeSteps r := by
  simp [treeSteps, treeLinks, Operand.link, Link.steps]

/-- The operands of a tree are those of its sides. -/
theorem treeOperands_node (op : BinaryOp) (l r : Grouping.Tree Operand) :
    treeOperands (.node op l r) = treeOperands l ++ treeOperands r := by
  simp [treeOperands, treeLinks, Operand.link]

/-- What the operands of a grouped tree are built to is what its chain is built to. -/
theorem tree_built {t : Grouping.Tree Operand} (grouped : t.Grouped) (first : t.first.Good rules)
    (rest : ∀ x ∈ t.rest, x.2.Good rules) :
    Build.expr rules (.chain t.first.piece.expr ((treeLinks t).map Link.link)) =
      .ok ((t.map Operand.placed).fold Build.combinePlaced).2 := by
  have operands : Build.operands rules ((treeLinks t).map Link.link) =
      .ok (t.map Operand.placed).rest := by
    rw [Build.operands_eq_ok, Grouping.Tree.rest_map, treeLinks, List.map_map,
      List.forall₂_map_left_iff,
      List.forall₂_map_right_iff, List.forall₂_same]
    intro x hx
    exact ⟨rfl, rfl, (rest x hx).built⟩
  have exact_ : (t.map Operand.placed).first.Exact := by
    rw [Grouping.Tree.first_map]
    exact Build.expr_range rules _ first.built
  have exacts : ∀ x ∈ (t.map Operand.placed).rest, x.2.Exact := by
    rw [Grouping.Tree.rest_map]
    intro x hx
    obtain ⟨y, hy, rfl⟩ := List.mem_map.1 hx
    exact Build.expr_range rules _ (rest y hy).built
  -- the ranges of the operands are exact, so either front end nests the chain to the fold of its
  -- tree
  have nested := Build.nestChain_eq rules.frontEnd _ _ exact_ exacts
  rw [← (grouped.map Operand.placed).eq_treeOf, Grouping.Tree.first_map] at nested
  simp only [Build.expr, Build.bind_eq_ok, Build.pure_eq_ok]
  exact ⟨_, first.built, _, operands, nested⟩

/-- What a chain nests is written by the stretches of the chain. -/
theorem tree_written {t : Grouping.Tree Operand} (grouped : t.Grouped)
    (script : Script .operand place t.first.piece.expr t.first.piece.steps)
    (first : t.first.Good rules) (rest : ∀ x ∈ t.rest, Operand.Linked rules x)
    (closed : ∀ x ∈ (treeOperands t).dropLast, endsOpen x = false) :
    Written rules (.expr ((t.map Operand.placed).fold Build.combinePlaced).2) (treeSteps t) := by
  induction t generalizing place with
  | leaf x =>
    have alone : treeSteps (.leaf x) = x.piece.steps := by simp [treeSteps, treeLinks]
    rw [alone]
    exact first.written
  | node op l r ihl ihr =>
    have whole : Script .expr place
        (.chain l.first.piece.expr ((treeLinks (.node op l r)).map Link.link))
        (treeSteps (.node op l r)) := by
      refine Script.chain _ (by simp [treeLinks]) script ?_ ?_ closed
      all_goals
        intro x hx
        obtain ⟨y, hy, rfl⟩ := List.mem_map.1 hx
      · exact (rest y hy).sign
      · exact (rest y hy).script
    have built := tree_built grouped first fun x hx => (rest x hx).good
    -- only the last operand of the whole chain may end with a choice, and it is that of the right
    -- side
    rw [treeOperands_node, List.dropLast_append_of_ne_nil (by simp [treeOperands])] at closed
    obtain ⟨-, -, gl, gr⟩ := grouped
    have middle := rest (op, r.first) (by simp)
    have left := ihl gl script first (fun x hx => rest x (by simp [hx]))
      fun x hx => closed x (by simp [List.dropLast_subset _ hx])
    have right := ihr gr middle.script middle.good (fun x hx => rest x (by simp [hx]))
      fun x hx => closed x (by simp [hx])
    refine .expr whole built ?_
    rw [treeSteps_node]
    have front : Opens false [⟨r.first.sign, Expect.expr⟩] := Opens.single (by simp [openings])
    exact left.spread_single.append (right.spread_single.after front false)

/-- The links of a chain with what their operands are built to. -/
theorem linked_of_built {links : List Link} {placed : List (BinaryOp × Build.Placed)}
    (ops : ∀ l ∈ links, binaryOp? l.sign.kind = some l.op)
    (script : ∀ l ∈ links, Script .operand .plain l.operand.expr l.operand.steps)
    (each : ∀ l ∈ links, ∀ e, Build.expr rules l.operand.expr = .ok e →
      Written rules (.expr e) l.operand.steps)
    (built : Build.operands rules (links.map Link.link) = .ok placed) :
    ∃ xs : List (BinaryOp × Operand), xs.map Operand.link = links ∧
      ∀ x ∈ xs, Operand.Linked rules x := by
  rw [Build.operands_eq_ok, List.forall₂_map_left_iff] at built
  induction built with
  | nil => exact ⟨[], rfl, by simp⟩
  | @cons l x links placed here _ ih =>
    obtain ⟨xs, rfl, linked⟩ := ih (fun l hl => ops l (by simp [hl]))
      (fun l hl => script l (by simp [hl])) fun l hl => each l (by simp [hl])
    obtain ⟨-, -, he⟩ := here
    refine ⟨(l.op, ⟨l.sign, l.operand, x.2.2⟩) :: xs, rfl, ?_⟩
    refine List.forall_mem_cons.2 ⟨⟨?_, ?_, he, ?_⟩, linked⟩
    · exact ops l (by simp)
    · exact script l (by simp)
    · exact each l (by simp) _ he

/-! ## Expressions -/

/-- The keys and values of a map are written one behind the other. -/
theorem pairs_spread {items : List ItemPiece} {es : List (Expr × Expr)}
    (keys : ∀ i ∈ items, ∀ e, Build.expr rules i.key.expr = .ok e →
      Written rules (.expr e) i.key.steps)
    (values : ∀ i ∈ items, ∀ e, Build.expr rules i.value.expr = .ok e →
      Written rules (.expr e) i.value.steps)
    (built : Build.pairs rules (items.map ItemPiece.item) = .ok es) :
    List.Forall₂ (Spread rules true) (es.map fun e => [.expr e.1, .expr e.2])
      (items.map ItemPiece.steps) := by
  rw [Build.pairs_eq_ok, List.forall₂_map_left_iff] at built
  rw [List.forall₂_map_left_iff, List.forall₂_map_right_iff]
  refine (forall₂_of_mem built fun i hi e he => ?_).flip
  have front : Opens false [⟨i.colon, Expect.expr⟩] := Opens.single (by simp [openings])
  have value := (values i hi e.2 he.2).spread_single.after front false
  exact (keys i hi e.1 he.1).spread_single.append value

/-- The values of a struct are written one behind the other, each behind its key. -/
theorem members_spread {ms : List MemberPiece} {es : List (Text × Expr)}
    (each : ∀ m ∈ ms, ∀ e, Build.expr rules m.value.expr = .ok e →
      Written rules (.expr e) m.value.steps)
    (built : Build.members rules (ms.map MemberPiece.member) = .ok es) :
    List.Forall₂ (Spread rules false) (es.map fun e => [.expr e.2])
      (ms.map MemberPiece.steps) := by
  have built := Build.members_eq_ok built
  rw [List.forall₂_map_left_iff] at built
  rw [List.forall₂_map_left_iff, List.forall₂_map_right_iff]
  refine (forall₂_of_mem built fun m hm e he => ?_).flip
  have front : Opens false [⟨m.colon, Expect.expr⟩] := Opens.single (by simp [openings])
  have value := (each m hm e.2 he).spread_single.after front false
  exact value.behind [m.key.step] false

/-- A script writes what is built from it. -/
theorem Script.written {level : Level} {σ : Surface.Expr} {xs : List Step}
    (script : Script level place σ xs) {e : Expr} (built : Build.expr rules σ = .ok e) :
    Written rules (.expr e) xs := by
  induction script generalizing e with
  | boolean t value kind =>
    refine .expr (.boolean t value kind) built ?_
    cases built
    exact .nil _
  | null t kind =>
    refine .expr (@Script.null .plain t kind) built ?_
    cases built
    exact .nil _
  | number k t kind =>
    refine .expr (@Script.number .plain k t kind) built ?_
    obtain ⟨v, -, rfl⟩ := by simpa [Build.expr] using built
    rw [children_number]
    exact .nil _
  | name t kind =>
    refine .expr (.name t kind) built ?_
    obtain ⟨-, rfl⟩ := by simpa [Build.expr] using built
    exact .nil _
  | string q start close parts k k' fits inner each =>
    refine .expr (@Script.string .plain q start close parts k k' fits inner) built ?_
    obtain ⟨raw, hraw, decoded, hdecoded, rfl⟩ := by simpa [Build.expr] using built
    show Spread rules true (partNodes decoded) _
    rw [decodeParts_nodes hdecoded]
    have spread := parts_spread (.string q) inner
      (fun p hp x hx e he => each p hp x hx he) hraw
    exact (spread.tail _).behind [⟨start, Expect.inString q⟩] true
  | array bracket close items k k' inner sep each =>
    refine .expr (@Script.array .plain bracket close items _ k k' inner sep) built ?_
    obtain ⟨es, hes, rfl⟩ := by simpa [Build.expr] using built
    have spread := sep.spread (by simp [openings])
      (exprs_spread (fun x hx e he => each x hx he) hes)
    rw [flatten_singles] at spread
    have front : Opens false [⟨bracket, Expect.exprOrBracket⟩] :=
      Opens.single (by simp [openings])
    exact (spread.tail _).after front true
  -- parentheses leave no node of their own: what is inside is written by all of the steps
  | group paren close k k' inner ih =>
    refine .expr (@Script.group .plain paren close _ _ k k' inner) built ?_
    obtain ⟨e, he, rfl⟩ := by simpa [Build.expr] using built
    rw [children_withRange]
    have front : Opens false [⟨paren, Expect.expr⟩] := Opens.single (by simp [openings])
    exact ((ih he).spread.tail _).after front true
  | pair paren comma close k k' k'' l r ihl ihr =>
    refine .expr (@Script.pair .plain paren comma close _ _ _ _ k k' k'' l r) built ?_
    obtain ⟨a, ha, b, hb, rfl⟩ := by simpa [Build.expr] using built
    have front : Opens false [⟨paren, Expect.expr⟩] := Opens.single (by simp [openings])
    have middle : Opens false [⟨comma, Expect.expr⟩] := Opens.single (by simp [openings])
    have right := ((ihr hb).spread_single.tail [⟨close, Expect.afterOperand⟩]).after middle false
    exact ((ihl ha).spread_single.append right).after front true
  | map brace close items k k' colons keys values sep ihk ihv =>
    refine .expr (@Script.map .plain brace close items _ k k' colons keys values sep) built ?_
    obtain ⟨es, hes, rfl⟩ := by simpa [Build.expr] using built
    have spread := sep.spread (by simp [openings])
      (pairs_spread (fun i hi e he => ihk i hi he) (fun i hi e he => ihv i hi he) hes)
    have front : Opens false [⟨brace, Expect.exprOrBrace⟩] := Opens.single (by simp [openings])
    exact (spread.tail _).after front true
  | choice kwIf kwThen kwElse k k' k'' a b c iha ihb ihc =>
    refine .expr (@Script.choice .plain kwIf kwThen kwElse _ _ _ _ _ _ k k' k'' a b c) built ?_
    obtain ⟨a, ha, b, hb, c, hc, rfl⟩ := by simpa [Build.expr] using built
    have front : Opens false [⟨kwIf, Expect.expr⟩] := Opens.single (by simp [openings])
    have second : Opens false [⟨kwThen, Expect.expr⟩] := Opens.single (by simp [openings])
    have third : Opens false [⟨kwElse, Expect.expr⟩] := Opens.single (by simp [openings])
    have last := (ihc hc).spread_single.after third false
    have rest := ((ihb hb).spread_single.append last).after second false
    exact ((iha ha).spread_single.append rest).after front true
  | @apply place name paren close arguments xs k k' k'' inner sep each =>
    refine .expr (@Script.apply place name paren close arguments _ k k' k'' inner sep) built ?_
    obtain ⟨es, hes, rfl⟩ := by simpa [Build.expr] using built
    have spread := sep.spread (by simp [openings])
      (exprs_spread (fun x hx e he => each x hx he) hes)
    rw [flatten_singles] at spread
    have front : Opens false [⟨name, place.afterName⟩, ⟨paren, Expect.exprOrParen⟩] := by
      simp [Opens, openings]
    exact (spread.tail _).after front true
  | @struct place name brace close ms xs k k' k'' fits inner sep each =>
    refine .expr (@Script.struct place name brace close ms _ k k' k'' fits inner sep) built ?_
    obtain ⟨es, hes, typeName, -, rfl⟩ := by simpa [Build.expr] using built
    have spread := sep.spread (by simp)
      (members_spread (fun m hm e he => each m hm he) hes)
    rw [flatten_singles] at spread
    exact (spread.tail _).behind [⟨name, place.afterName⟩, ⟨brace, Expect.members⟩] true
  | bare _ ih => exact ih built
  | accessed suffixes ne closed script fits inner ih each =>
    exact accessed_written suffixes closed script (fun e he => ih he) fits inner
      (fun a ha x hx e he => each a ha x hx he) ne built
  | unsigned _ ih => exact ih built
  | signed signs ne ops script ih =>
    exact signed_written signs ops script (fun e he => ih he) ne built
  | single _ ih => exact ih built
  | @chain place σ xs links ne script ops operands closed ih each =>
    have parts := built
    simp only [Build.expr, Build.bind_eq_ok, Build.pure_eq_ok] at parts
    obtain ⟨b, hb, placed, hplaced, -⟩ := parts
    obtain ⟨ys, rfl, linked⟩ := linked_of_built ops operands
      (fun l hl e he => each l hl he) hplaced
    -- no operator stands in front of the first operand, so its token is any
    have good : Operand.Good rules ⟨default, ⟨σ, xs⟩, b⟩ := ⟨hb, ih hb⟩
    have grouped := Grouping.treeOf_grouped (⟨default, ⟨σ, xs⟩, b⟩ : Operand) ys
    have whole := @tree_built rules _ grouped (by simpa using good)
      (by simpa using fun x hx => (linked x hx).good)
    have written := @tree_written rules place _ grouped (by simpa using script)
      (by simpa using good) (by simpa using linked)
      (by simpa [treeOperands, treeLinks] using closed)
    simp only [treeLinks, treeSteps, Grouping.first_treeOf, Grouping.rest_treeOf] at whole written
    rw [built] at whole
    cases whole
    exact written

end Wdl.Parser
