import Mathlib.Data.List.Chain
import Wdl.Proofs.Fragments
import Wdl.Proofs.Grammars
import Wdl.Proofs.Replay

/-!
# Wdl.Proofs.Derivations -- what a grammar derives is written by a script

A `Script` says which steps write which surface form, and what is built is built from surface forms.
A derivation knows no surface form: it has the outcome of its own callbacks, of which those of one
grammar work operator by operator and those of the other on whole runs. Here each derivation of
either grammar is given a script such that what is built from the surface form is the outcome of the
derivation. The induction is over `Derives`, and `Means` says for each nonterminal what the
derivation stands for.

* `Piece.map` and its like exchange what stands for expressions in pieces; `Piece.build` puts what
  is built in the place of surface forms.
* `exprs_build`, `pairs_build`, `members_build`, `accesses_build` and `parts_build` say that building
  lists of surface forms is what the callbacks do to lists of pieces.
* `accessedBy_concat` and `signedBy_cons` build accesses and prefix operators one by one, as one
  grammar does; `accessedBy_fold`, `signedBy_fold` and `chainedWith_build` all at once, as the other.
* `along` is what the callbacks make of a chain along a tree of operators. That it is what is built
  from the chain (`along_build`) rests on there being one grouped tree (`Grouping.Tree.Grouped`).
* `Layered` is what a level of operators derives: operands along a grouped tree, none of whose
  operators is looser than those of the level, with nothing ahead that the level goes on with.
* `Derives.means` is the result; `Derives.script` says less, for nonterminals of any kind.
-/

namespace Wdl.Parser

variable {α β : Type}

/-! ## Pieces with other contents

A `Piece` is polymorphic in what stands for its expression. In a script that is a surface form, in a
derivation the outcome of the callbacks, `Checked Expr`. Steps, and what a piece `Fits`, do not
depend on it, so each of the maps here keeps them; the lemmas that say so are tagged `simp` and used
without being named. -/

section Maps

variable (f : α → β)

/-- A piece with something else that stands for its expression. -/
def Piece.map (x : Piece α) : Piece β := ⟨f x.expr, x.steps⟩

/-- An operator and its operand with something else for the operand. -/
def Link.map (l : Link α) : Link β := ⟨l.op, l.sign, l.operand.map f⟩

def Suffix.map : Suffix α → Suffix β
  | .member dot name => .member dot name
  | .index bracket close inner => .index bracket close (inner.map f)

def ItemPiece.map (i : ItemPiece α) : ItemPiece β := ⟨i.key.map f, i.colon, i.value.map f⟩

def MemberPiece.map (m : MemberPiece α) : MemberPiece β := ⟨m.key, m.colon, m.value.map f⟩

/-- A placeholder with something else for its expression. -/
def Hole.map (h : Hole α) : Hole β := ⟨h.options, h.body.map f⟩

def PartPiece.map : PartPiece α → PartPiece β
  | .text t => .text t
  | .hole opener close h => .hole opener close (h.map f)

@[simp] theorem Piece.steps_map (x : Piece α) : (x.map f).steps = x.steps := rfl

@[simp] theorem Piece.expr_map (x : Piece α) : (x.map f).expr = f x.expr := rfl

@[simp] theorem Link.steps_map (l : Link α) : (l.map f).steps = l.steps := rfl

@[simp] theorem Suffix.steps_map (a : Suffix α) : (a.map f).steps = a.steps := by
  cases a <;> rfl

@[simp] theorem Suffix.fits_map (a : Suffix α) : (a.map f).Fits ↔ a.Fits := by
  cases a <;> rfl

@[simp] theorem Suffix.inner_map (a : Suffix α) : (a.map f).inner = a.inner.map (Piece.map f) := by
  cases a <;> rfl

@[simp] theorem ItemPiece.steps_map (i : ItemPiece α) : (i.map f).steps = i.steps := rfl

@[simp] theorem MemberPiece.steps_map (m : MemberPiece α) : (m.map f).steps = m.steps := rfl

@[simp] theorem PartPiece.steps_map (template : Template) (x : PartPiece α) :
    (x.map f).steps template = x.steps template := by
  cases x <;> rfl

@[simp] theorem PartPiece.fits_map (template : Template) (x : PartPiece α) :
    (x.map f).Fits template ↔ x.Fits template := by
  cases x <;> rfl

@[simp] theorem PartPiece.inner_map (x : PartPiece α) :
    (x.map f).inner = x.inner.map (Piece.map f) := by
  cases x <;> rfl

@[simp] theorem PartPiece.isText_map (x : PartPiece α) : (x.map f).isText = x.isText := by
  cases x <;> rfl

/-- What comes before or behind operands and accesses does not depend on their contents. -/
@[simp] theorem lookBehind_map (look : Option Terminal) (links : List (Link α)) :
    lookBehind look (links.map (Link.map f)) = lookBehind look links := by
  cases links <;> rfl

@[simp] theorem lookAccess_map (look : Option Terminal) (suffixes : List (Suffix α)) :
    lookAccess look (suffixes.map (Suffix.map f)) = lookAccess look suffixes := by
  rcases suffixes with _ | ⟨a, suffixes⟩
  · rfl
  · cases a <;> rfl

end Maps

/-- Items that each come from something with a property come from a list of such. This is how a
derivation's pieces, each of which comes from a script, become the pieces of one script. -/
theorem exists_map {f : α → β} {P : α → Prop} {ys : List β} (h : ∀ y ∈ ys, ∃ x, f x = y ∧ P x) :
    ∃ xs : List α, xs.map f = ys ∧ ∀ x ∈ xs, P x := by
  induction ys with
  | nil => exact ⟨[], rfl, by simp⟩
  | cons y ys ih =>
    obtain ⟨x, rfl, hx⟩ := h y (by simp)
    obtain ⟨xs, rfl, hxs⟩ := ih fun y hy => h y (by simp [hy])
    exact ⟨x :: xs, rfl, List.forall_mem_cons.2 ⟨hx, hxs⟩⟩

/-! ## Building from pieces

Each of these lemmas has on its left what is built from a surface form, and on its right a callback
applied to the pieces of which the form was made, with `Build.expr` already applied to each. -/

section Building

variable (rules : Rules)

/-- What is built from a surface form, in place of it. -/
abbrev Piece.build (x : Piece) : Phrase := x.map (Build.expr rules)

/-- Expressions of a list are built one by one, whether before the callback or by it. -/
theorem exprs_build (items : List Piece) :
    Build.exprs rules (items.map Piece.expr) = (items.map (Piece.build rules)).mapM Piece.expr := by
  induction items with
  | nil => rfl
  | cons x items ih => simp only [List.map_cons, Build.exprs, List.mapM_cons, ih, Piece.expr_map]

/-- Keys and values of a map are built in the order in which they are written. -/
theorem pairs_build (items : List ItemPiece) :
    Build.pairs rules (items.map ItemPiece.item) =
      (items.map (ItemPiece.map (Build.expr rules))).mapM ItemPiece.built := by
  induction items with
  | nil => rfl
  | cons i items ih =>
    simp only [List.map_cons, ItemPiece.item, Build.pairs, List.mapM_cons, ih, ItemPiece.built,
      ItemPiece.map, Piece.expr_map, bind_assoc, pure_bind]

/-- A key of a struct is checked before its value is built. -/
theorem members_build (ms : List MemberPiece) :
    Build.members rules (ms.map MemberPiece.member) =
      (ms.map (MemberPiece.map (Build.expr rules))).mapM (MemberPiece.built rules) := by
  induction ms with
  | nil => rfl
  | cons m ms ih =>
    obtain ⟨key, colon, value⟩ := m
    cases key <;>
      simp only [List.map_cons, MemberPiece.member, KeyToken.key, Build.members, List.mapM_cons, ih,
        MemberPiece.built, MemberPiece.map, Piece.expr_map, bind_assoc, pure_bind]

/-- The index of an access is built where the access is. -/
theorem accesses_build (suffixes : List Suffix) :
    Build.accesses rules (suffixes.map Suffix.accessor) =
      (suffixes.map (Suffix.map (Build.expr rules))).mapM (Suffix.built rules) := by
  induction suffixes with
  | nil => rfl
  | cons a suffixes ih =>
    cases a <;>
      simp only [List.map_cons, Suffix.accessor, Build.accesses, List.mapM_cons, ih, Suffix.built,
        Suffix.map, Piece.expr_map, bind_assoc, pure_bind]

/-- A placeholder reaches from its first option, or else its expression, to its last token. -/
theorem hole_build {h : Hole} (script : Script .expr .placeholder h.body.expr h.body.steps) :
    Build.placeholder rules h.placeholder = (h.map (Build.expr rules)).built rules := by
  have range : h.placeholder.range = spanOf h.steps := by
    show (⟨_, _⟩ : Range) = _
    rw [script.range_eq, Hole.steps]
    cases options : h.options with
    | nil => rfl
    | cons o os =>
      rw [List.flatMap_cons, spanOf_append (by simp [OptionPiece.steps]) script.ne_nil]
      rfl
  have steps : (h.map (Build.expr rules)).steps = h.steps := rfl
  rw [Hole.built, steps, ← range]
  show (do let options ← (h.options.map OptionPiece.option).mapM _; _ : Checked Placeholder) = _
  rw [List.mapM_map]
  rfl

theorem parts_build {parts : List PartPiece}
    (script : ∀ x ∈ parts, ∀ p ∈ x.inner, Script .expr .placeholder p.expr p.steps) :
    Build.rawParts rules (parts.map PartPiece.part) =
      (parts.map (PartPiece.map (Build.expr rules))).mapM (PartPiece.built rules) := by
  induction parts with
  | nil => rfl
  | cons x parts ih =>
    have rest := ih fun y hy => script y (by simp [hy])
    cases x with
    | text t =>
      rw [List.map_cons, List.map_cons, List.mapM_cons, ← rest]
      rfl
    | hole opener close h =>
      have body := hole_build rules
        (script (.hole opener close h) (by simp) h.body (by simp [PartPiece.inner]))
      simp only [List.map_cons, PartPiece.part, Build.rawParts, body, List.mapM_cons, rest,
        PartPiece.map, PartPiece.built, bind_assoc, pure_bind]

end Building

/-! ## Accesses and prefix operators one by one

One grammar has a production for one access and one for one prefix operator; the other takes all of
them at once. Surface forms have them as lists. So the callbacks of the first are compared with a
list that is extended by one, behind the last access (`accessedBy_concat`) or in front of the first
prefix operator (`signedBy_cons`). -/

section Layers

variable {rules : Rules} {place : Place}

/-- An operand behind prefix operators, if there are any. -/
def signedBy (e : Surface.Expr) : List Sign → Surface.Expr
  | [] => e
  | x :: signs => .signed ((x :: signs).map Sign.sign) e

/-- A script of an operand is that of its prefix operators, then that of what they stand before. -/
theorem Script.operand_cases {e : Surface.Expr} {xs : List Step}
    (h : Script .operand .plain e xs) :
    ∃ (e₀ : Surface.Expr) (xs₀ : List Step) (signs : List Sign),
      Script .accessed .plain e₀ xs₀ ∧ xs = signs.map Sign.step ++ xs₀ ∧ e = signedBy e₀ signs ∧
      ∀ x ∈ signs, unaryOp? x.token.kind = some x.op := by
  cases h with
  | unsigned h => exact ⟨e, xs, [], h, rfl, rfl, by simp⟩
  | @signed _ e₀ xs₀ signs ne ops h =>
    obtain ⟨x, signs, rfl⟩ := List.exists_cons_of_ne_nil ne
    exact ⟨e₀, xs₀, x :: signs, h, rfl, rfl, ops⟩

/-- Either front end builds accesses by nesting them, the first one innermost. -/
theorem accessedBy_build (rules : Rules) (e : Surface.Expr) (suffixes : List Suffix) :
    Build.expr rules (accessedBy e suffixes) = (do
      let subject ← Build.expr rules e
      let accesses ← (suffixes.map (Suffix.map (Build.expr rules))).mapM (Suffix.built rules)
      return Build.nestAccesses e.range.start subject accesses) := by
  cases suffixes with
  | nil =>
    show _ = Build.expr rules e >>= fun subject => pure subject
    rw [bind_pure]
    rfl
  | cons a suffixes =>
    rw [accessedBy, Build.expr, accesses_build]
    cases built : Build.expr rules e with
    | error v => rfl
    | ok subject =>
      have start := congrArg Range.start (Build.expr_range rules e built)
      have same : Build.applyAccesses rules.frontEnd e.range.start subject =
          Build.nestAccesses e.range.start subject :=
        funext fun accesses => applyAccesses_eq rules.frontEnd start accesses
      exact congrArg (fun nest => (do return nest (← List.mapM _ _) : Checked Expr)) same

/-- Either front end builds prefix operators by nesting them, the last one innermost. -/
theorem signedBy_build (rules : Rules) (e : Surface.Expr) (signs : List Sign) :
    Build.expr rules (signedBy e signs) = (do
      let operand ← Build.expr rules e
      return Build.nestSigns e.range.stop (signs.map Sign.sign) operand) := by
  cases signs with
  | nil =>
    show _ = Build.expr rules e >>= fun operand => pure operand
    rw [bind_pure]
    rfl
  | cons x signs =>
    rw [signedBy, Build.expr]
    refine congrArg _ (funext fun operand => ?_)
    rw [applySigns_eq]
    rfl

/-- An access that is built is where it is written. -/
theorem Suffix.range_built {a : Suffix (Checked Expr)} {access : Build.Access}
    (h : a.built rules = .ok access) : access.range = spanOf a.steps := by
  cases a with
  | member dot name =>
    obtain ⟨-, rfl⟩ := by simpa [Suffix.built] using h
    rfl
  | index bracket close inner =>
    obtain ⟨i, -, rfl⟩ := by simpa [Suffix.built] using h
    exact (spanOf_enclosed ⟨bracket, _⟩ ⟨close, _⟩ _).symm

/-- An access is written by at least two tokens. -/
theorem Suffix.steps_ne (a : Suffix α) : a.steps ≠ [] := by
  cases a <;> exact List.cons_ne_nil _ _

/-- The last access is applied to what is built of those before it. -/
theorem accessedBy_concat (rules : Rules) {place : Place} {e : Surface.Expr} {xs : List Step}
    (script : Script .primary place e xs) (suffixes : List Suffix) (a : Suffix) :
    Build.expr rules (accessedBy e (suffixes ++ [a])) = (do
      let subject ← Build.expr rules (accessedBy e suffixes)
      let access ← (a.map (Build.expr rules)).built rules
      let whole := spanOf (xs ++ suffixes.flatMap Suffix.steps ++ a.steps)
      return access.apply whole subject) := by
  rw [accessedBy_build, accessedBy_build]
  simp only [List.map_append, List.map_cons, List.map_nil, List.mapM_append, List.mapM_cons,
    List.mapM_nil, bind_assoc, pure_bind, nestAccesses_append]
  refine congrArg _ (funext fun subject => congrArg _ (funext fun accesses => ?_))
  -- the place of the last access is known once it is built
  cases built : (a.map (Build.expr rules)).built rules with
  | error v => rfl
  | ok access =>
    have range := Suffix.range_built built
    rw [Suffix.steps_map] at range
    have span : spanOf (xs ++ suffixes.flatMap Suffix.steps ++ a.steps) =
        ⟨e.range.start, access.range.stop⟩ := by
      have ne : xs ++ suffixes.flatMap Suffix.steps ≠ [] := by simp [script.ne_nil]
      rw [spanOf_append ne a.steps_ne, script.range_eq, range, spanOf, spanOf,
        List.head?_append_of_ne_nil _ script.ne_nil]
      rfl
    show Except.ok (access.apply _ _) = Except.ok (access.apply (spanOf _) _)
    rw [span]

end Layers

/-! ## Chains along trees

The grammar that has a nonterminal for each level builds at each operator; building a surface form
builds all operands first and nests them then. Both stop at the same violation, because either goes
through the operands from left to right, and a binary operator itself complains of nothing. -/

section Chains

variable (rules : Rules)

/-- From the first operand of a tree to the last. -/
def reach : Grouping.Tree Piece → Range
  | .leaf x => x.expr.range
  | .node _ l r => (reach l).join (reach r)

/-- What the callbacks make of a chain that is nested as a tree: those of an operator come behind
those of its operands. -/
def along : Grouping.Tree Piece → Checked Expr
  | .leaf x => Build.expr rules x.expr
  | .node op l r => do
    let left ← along l
    let right ← along r
    return .binary ((reach l).join (reach r)) op left right

/-- The same tree with what is built from its operands. -/
def operandsBuilt : Grouping.Tree Piece → Checked (Grouping.Tree Build.Placed)
  | .leaf x => do return .leaf (x.expr.range, ← Build.expr rules x.expr)
  | .node op l r => do
    let left ← operandsBuilt l
    return .node op left (← operandsBuilt r)

/-- Building at each operator is building the operands first and combining them all. -/
theorem along_eq (t : Grouping.Tree Piece) :
    (do return (reach t, ← along rules t)) =
      (do return (← operandsBuilt rules t).fold Build.combinePlaced) := by
  induction t with
  | leaf x => simp only [along, reach, operandsBuilt, Grouping.Tree.fold, bind_assoc, pure_bind]
  | node op l r ihl ihr =>
    -- both sides, written so that what each operand gives is taken apart first
    have left : (do return (reach (.node op l r), ← along rules (.node op l r))) = (do
        let x ← (do return (reach l, ← along rules l))
        let y ← (do return (reach r, ← along rules r))
        return Build.combinePlaced op x y) := by
      simp only [along, reach, Build.combinePlaced, bind_assoc, pure_bind]
    have right : (do return (← operandsBuilt rules (.node op l r)).fold Build.combinePlaced) = (do
        let x ← (do return (← operandsBuilt rules l).fold Build.combinePlaced)
        let y ← (do return (← operandsBuilt rules r).fold Build.combinePlaced)
        return Build.combinePlaced op x y) := by
      simp only [operandsBuilt, Grouping.Tree.fold, bind_assoc, pure_bind]
    rw [left, right, ihl, ihr]

/-- The operands of a chain may be built up to any place first, and those behind it then. -/
theorem operands_append (as bs : List (BinaryOp × Surface.Expr)) :
    Build.operands rules (as ++ bs) = (do
      let xs ← Build.operands rules as
      return xs ++ (← Build.operands rules bs)) := by
  induction as with
  | nil =>
    show _ = Build.operands rules bs >>= fun ys => pure ys
    rw [bind_pure]
    rfl
  | cons a as ih =>
    simp only [List.cons_append, Build.operands, ih, bind_assoc, pure_bind]

/-- The operands of a tree are built from the first to the last. -/
theorem operandsBuilt_eq (t : Grouping.Tree Piece) :
    (do let u ← operandsBuilt rules t; return (u.first, u.rest)) = (do
      let first ← Build.expr rules t.first.expr
      let rest ← Build.operands rules (t.rest.map fun link => (link.1, link.2.expr))
      return ((t.first.expr.range, first), rest)) := by
  induction t with
  | leaf x =>
    simp only [operandsBuilt, bind_assoc, pure_bind]
    rfl
  | node op l r ihl ihr =>
    have left : (do
        let u ← operandsBuilt rules (.node op l r)
        return (u.first, u.rest)) = (do
        let x ← (do let u ← operandsBuilt rules l; return (u.first, u.rest))
        let y ← (do let u ← operandsBuilt rules r; return (u.first, u.rest))
        return (x.1, x.2 ++ (op, y.1) :: y.2)) := by
      simp only [operandsBuilt, bind_assoc, pure_bind, Grouping.Tree.first_node,
        Grouping.Tree.rest_node]
    rw [left, ihl, ihr]
    simp only [Grouping.Tree.first_node, Grouping.Tree.rest_node, List.map_append, List.map_cons,
      operands_append, Build.operands, bind_assoc, pure_bind]

/-- The operands of a tree are placed where they are built, and the tree keeps its shape. -/
theorem operandsBuilt_shape {t : Grouping.Tree Piece} {u : Grouping.Tree Build.Placed}
    (h : operandsBuilt rules t = .ok u) :
    u.first.Exact ∧ (∀ x ∈ u.rest, x.2.Exact) ∧ u.strength = t.strength ∧
      (t.Grouped → u.Grouped) := by
  induction t generalizing u with
  | leaf x =>
    obtain ⟨e, built, rfl⟩ := by simpa [operandsBuilt] using h
    exact ⟨Build.expr_range rules x.expr built, by simp, rfl, id⟩
  | node op l r ihl ihr =>
    obtain ⟨l', hl, r', hr, rfl⟩ := by simpa [operandsBuilt] using h
    obtain ⟨firstl, restl, strengthl, groupedl⟩ := ihl hl
    obtain ⟨firstr, restr, strengthr, groupedr⟩ := ihr hr
    refine ⟨firstl, ?_, rfl, ?_⟩
    · intro x hx
      rw [Grouping.Tree.rest_node, List.mem_append, List.mem_cons] at hx
      rcases hx with hx | rfl | hx
      · exact restl x hx
      · exact firstr
      · exact restr x hx
    · rintro ⟨tight, loose, gl, gr⟩
      exact ⟨by rw [strengthl]; exact tight, by rw [strengthr]; exact loose, groupedl gl,
        groupedr gr⟩

/-- What the callbacks make of a chain along its grouped tree is what is built from the chain. -/
theorem along_build {t : Grouping.Tree Piece} (grouped : t.Grouped) {links : List Link}
    (rest : t.rest = links.map fun l => (l.op, l.operand)) :
    along rules t = Build.expr rules (chainedWith t.first.expr links) := by
  cases t with
  | leaf x =>
    obtain rfl : links = [] := List.map_eq_nil_iff.1 rest.symm
    rfl
  -- a tree has an operator, so the chain is not a single operand
  | node op l r =>
    generalize tree : Grouping.Tree.node op l r = t at *
    obtain ⟨link, links, rfl⟩ : ∃ link more, links = link :: more := by
      refine List.exists_cons_of_ne_nil ?_
      rintro rfl
      simp [← tree] at rest
    have built : along rules t = (do
        let u ← operandsBuilt rules t
        return (u.fold Build.combinePlaced).2) := by
      have eq := congrArg (Functor.map Prod.snd) (along_eq rules t)
      simpa only [map_bind, map_pure, bind_pure] using eq
    have operands : ((link :: links).map Link.link) =
        t.rest.map fun link => (link.1, link.2.expr) := by
      rw [rest, List.map_map]
      rfl
    have chain : Build.expr rules (.chain t.first.expr ((link :: links).map Link.link)) = (do
        let u ← operandsBuilt rules t
        return Build.nestChain rules.frontEnd u.first u.rest) := by
      have eq := congrArg (· >>= fun x => pure (Build.nestChain rules.frontEnd x.1 x.2))
        (operandsBuilt_eq rules t)
      simp only [bind_assoc, pure_bind] at eq
      rw [eq, Build.expr, operands]
    rw [chainedWith, chain, built]
    -- an operand that is refused is refused on both sides; otherwise there is only one grouped tree
    cases done : operandsBuilt rules t with
    | error v => rfl
    | ok u =>
      obtain ⟨first, others, -, keeps⟩ := operandsBuilt_shape rules done
      have nested := Build.nestChain_eq rules.frontEnd u.first u.rest first others
      rw [← (keeps grouped).eq_treeOf] at nested
      show Except.ok _ = Except.ok _
      rw [nested]

end Chains

/-! ## From derivations to scripts

`Means` is the motive of the induction. It says more of the levels of operators than of other
nonterminals: while a chain is put together, its operands, its operators and its tree have to be
kept apart, and only the loosest level makes one expression of them (`Layered.expr`). -/

section Sound

variable {rules : Rules} {place : Place} {look : Option Terminal}

/-- Nothing is ahead that an expression goes on with. -/
def Ends (look : Option Terminal) : Prop :=
  look.any startsAccessor = false ∧ look.bind binaryOp? = none

/-- A phrase is built from a script of a layer. A choice at its end goes as far as it can. -/
def Scripted (rules : Rules) (level : Level) (place : Place) (look : Option Terminal)
    (p : Phrase) : Prop :=
  ∃ x : Piece, x.build rules = p ∧ Script level place x.expr x.steps ∧
    (endsOpen x.expr = true → Ends look)

/-- A phrase of a level of operators is built from operands and operators along a grouped tree, in
which no operator is looser than those of the level. -/
structure Layered (rules : Rules) (level : Nat) (place : Place) (look : Option Terminal)
    (p : Phrase) (first : Piece) (links : List Link) (t : Grouping.Tree Piece) : Prop where
  script : Script .operand place first.expr first.steps
  ops : ∀ l ∈ links, binaryOp? l.sign.kind = some l.op
  operands : ∀ l ∈ links, Script .operand .plain l.operand.expr l.operand.steps
  closed : ∀ e ∈ (first.expr :: links.map fun l => l.operand.expr).dropLast, endsOpen e = false
  last : ∀ e ∈ (first.expr :: links.map fun l => l.operand.expr).getLast?,
    endsOpen e = true → Ends look
  steps : p.steps = first.steps ++ links.flatMap Link.steps
  grouped : t.Grouped
  tight : level < t.strength
  first_eq : t.first = first
  rest_eq : t.rest = links.map fun l => (l.op, l.operand)
  built : p.expr = along rules t
  reach_eq : reach t = spanOf p.steps
  quiet : look.any startsAccessor = false
  looser : ∀ op, look.bind binaryOp? = some op → op.precedence ≤ level + 1

/-- What a derivation from each nonterminal stands for. -/
def Means (rules : Rules) (nonterminal : Nonterminal) (place : Place) (look : Option Terminal)
    (p : Phrase) : Prop :=
  match nonterminal with
  | .expr | .sequence => Scripted rules .expr place look p ∧ Ends look
  | .primary => Scripted rules .primary place look p
  | .core => Scripted rules .accessed place look p
  | .access => Scripted rules .accessed place look p ∧ look.any startsAccessor = false
  | .unary | .prefixed => Scripted rules .operand place look p ∧ look.any startsAccessor = false
  | .layer level => ∃ first links t, Layered rules level place look p first links t

/-- The operators of a level are those whose precedence is one more than its number. -/
theorem mem_layerOps {op : BinaryOp} {level : Nat} :
    op ∈ layerOps level ↔ op.precedence = level + 1 := by
  rcases level with _ | _ | _ | _ | _ | _ | level <;> cases op <;>
    simp [layerOps, BinaryOp.precedence]

/-- What is complete at a level has no operator of that level ahead. -/
theorem Done.layer {level : Nat} (h : Done (.layer level) look) {op : BinaryOp}
    (ahead : look.bind binaryOp? = some op) : op.precedence ≠ level + 1 := by
  obtain ⟨t, rfl, isOp⟩ := Option.bind_eq_some_iff.1 ahead
  intro here
  have mem := mem_layerOps.2 here
  simp [Done, goesOn, isOp, mem] at h

/-- An operator does not end an expression. -/
theorem not_ends {sign : Token} {op : BinaryOp} (isOp : binaryOp? sign.kind = some op) :
    ¬ Ends (some sign.kind) := by
  rintro ⟨-, none⟩
  rw [Option.bind_some, isOp] at none
  cases none

/-- An access does not end an expression either. -/
theorem not_ends_access {a : Suffix α} (fits : a.Fits) (look : Option Terminal) :
    ¬ Ends (lookAccess look [a]) := by
  rintro ⟨quiet, -⟩
  cases a with
  | member dot name => simp [lookAccess, fits.1, startsAccessor] at quiet
  | index bracket close inner => simp [lookAccess, fits.1, startsAccessor] at quiet

/-! ### Operands -/

/-- One more access. -/
theorem Scripted.suffix {p : Phrase} {a : Suffix}
    (h : Scripted rules .accessed place (lookAccess look [a]) p) (fits : a.Fits)
    (inner : ∀ x ∈ a.inner, Script .expr .plain x.expr x.steps) :
    Scripted rules .accessed place look
      ⟨do
        let subject ← p.expr
        let access ← (a.map (Build.expr rules)).built rules
        return access.apply (spanOf (p.steps ++ a.steps)) subject,
      p.steps ++ a.steps⟩ := by
  obtain ⟨x, rfl, script, openEnd⟩ := h
  have closed : endsOpen x.expr = false := by
    by_contra isOpen
    exact not_ends_access fits look (openEnd (by simpa using isOpen))
  -- the accesses before this one are part of the same surface form, so it is taken apart and
  -- rebuilt
  obtain ⟨e₀, xs₀, suffixes, primary, steps, eq, fits', inner', closed'⟩ := script.accessed_cases
  have closed₀ : endsOpen e₀ = false := by
    by_cases empty : suffixes = []
    · subst empty
      rwa [eq] at closed
    · exact closed' empty
  obtain ⟨b, more, list⟩ : ∃ b more, suffixes ++ [a] = b :: more :=
    List.exists_cons_of_ne_nil (by simp)
  refine ⟨⟨accessedBy e₀ (suffixes ++ [a]), x.steps ++ a.steps⟩, ?_, ?_, ?_⟩
  · refine congrArg (Piece.mk · _) ?_
    show Build.expr rules (accessedBy e₀ (suffixes ++ [a])) = (Build.expr rules x.expr >>= _)
    rw [eq, accessedBy_concat rules primary, ← steps]
    rfl
  · show Script .accessed place (accessedBy e₀ (suffixes ++ [a])) (x.steps ++ a.steps)
    have written := Script.accessed (suffixes ++ [a]) (by simp) closed₀ primary
      (List.forall_mem_append.2 ⟨fits', by simpa using fits⟩)
      (List.forall_mem_append.2 ⟨inner', by simpa using inner⟩)
    rw [List.flatMap_append, List.flatMap_singleton, ← List.append_assoc, ← steps] at written
    rw [list] at written ⊢
    exact written
  · rw [list]
    rintro ⟨⟩

@[simp] theorem endsOpen_signedBy (e : Surface.Expr) (signs : List Sign) :
    endsOpen (signedBy e signs) = endsOpen e := by
  cases signs <;> rfl

/-- Where steps end does not depend on those in front. -/
theorem spanOf_stop {xs ys : List Step} (ne : ys ≠ []) :
    (spanOf (xs ++ ys)).stop = (spanOf ys).stop := by
  rw [spanOf, spanOf, List.getLast?_append_of_ne_nil _ ne]

/-- Prefix operators are written in front of an operand with its accesses. -/
theorem Script.signedBy {e : Surface.Expr} {xs : List Step} {signs : List Sign} (ne : signs ≠ [])
    (h : Script .accessed .plain e xs) (ops : ∀ x ∈ signs, unaryOp? x.token.kind = some x.op) :
    Script .operand place (signedBy e signs) (signs.map Sign.step ++ xs) := by
  obtain ⟨x, signs, rfl⟩ := List.exists_cons_of_ne_nil ne
  exact .signed (x :: signs) ne ops h

/-- The first prefix operator is applied to what is built of those behind it. -/
theorem signedBy_cons (rules : Rules) {e : Surface.Expr} {xs : List Step}
    (script : Script .accessed .plain e xs) (x : Sign) (signs : List Sign) :
    Build.expr rules (signedBy e (x :: signs)) = (do
      let whole := spanOf (x.step :: (signs.map Sign.step ++ xs))
      return Build.applySign whole x.op (← Build.expr rules (signedBy e signs))) := by
  have span : spanOf (x.step :: (signs.map Sign.step ++ xs)) =
      ⟨x.token.start, e.range.stop⟩ := by
    rw [spanOf_cons _ (by simp [script.ne_nil]), script.range_eq, ← spanOf_stop script.ne_nil]
    rfl
  rw [signedBy_build, signedBy_build, span]
  simp only [bind_assoc, pure_bind]
  rfl

/-- Prefix operators are applied all at once. -/
theorem signedBy_fold (rules : Rules) {e : Surface.Expr} {xs : List Step}
    (script : Script .accessed .plain e xs) (signs : List Sign) :
    Build.expr rules (signedBy e signs) = (do
      let operand ← Build.expr rules e
      let whole := spanOf (signs.map Sign.step ++ xs)
      return Build.foldSigns whole (signs.map Sign.sign) operand) := by
  rw [signedBy_build]
  refine congrArg _ (funext fun operand => ?_)
  simp only [Build.foldSigns_eq]
  rw [script.range_eq, ← spanOf_stop script.ne_nil]

/-- One more prefix operator. -/
theorem Scripted.sign {p : Phrase} {x : Sign} (isOp : unaryOp? x.token.kind = some x.op)
    (h : Scripted rules .operand .plain look p) :
    Scripted rules .operand place look
      ⟨do return Build.applySign (spanOf (x.step :: p.steps)) x.op (← p.expr),
      x.step :: p.steps⟩ := by
  obtain ⟨y, rfl, script, openEnd⟩ := h
  obtain ⟨e₀, xs₀, signs, accessed, steps, eq, ops⟩ := script.operand_cases
  refine ⟨⟨signedBy e₀ (x :: signs), x.step :: y.steps⟩, ?_, ?_, ?_⟩
  · refine congrArg (Piece.mk · _) ?_
    show Build.expr rules (Parser.signedBy e₀ (x :: signs)) =
      (do return Build.applySign (spanOf (x.step :: y.steps)) x.op (← Build.expr rules y.expr))
    rw [eq, steps]
    exact signedBy_cons rules accessed x signs
  · have written : Script .operand place _ _ := accessed.signedBy (List.cons_ne_nil x signs)
      (List.forall_mem_cons.2 ⟨isOp, ops⟩)
    rwa [List.map_cons, List.cons_append, ← steps] at written
  · intro isOpen
    refine openEnd ?_
    rw [eq, endsOpen_signedBy]
    simpa using isOpen

/-- Prefix operators all at once. -/
theorem Scripted.signs {p : Phrase} {signs : List Sign} (ne : signs ≠ [])
    (ops : ∀ x ∈ signs, unaryOp? x.token.kind = some x.op)
    (h : Scripted rules .accessed .plain look p) :
    Scripted rules .operand place look
      ⟨do
        let operand ← p.expr
        let whole := spanOf (signs.map Sign.step ++ p.steps)
        return Build.foldSigns whole (signs.map Sign.sign) operand,
      signs.map Sign.step ++ p.steps⟩ := by
  obtain ⟨y, rfl, script, openEnd⟩ := h
  refine ⟨⟨signedBy y.expr signs, signs.map Sign.step ++ y.steps⟩, ?_, script.signedBy ne ops, ?_⟩
  · exact congrArg (Piece.mk · _) (signedBy_fold rules script signs)
  · intro isOpen
    exact openEnd (by simpa using isOpen)

/-- An access that is derived comes from one that is written. -/
theorem exists_suffix {a : Suffix (Checked Expr)} (fits : a.Fits)
    (inner : ∀ x ∈ a.inner, Scripted rules .expr .plain (some (.symbol .bracketClose)) x) :
    ∃ b : Suffix, b.map (Build.expr rules) = a ∧ b.Fits ∧
      ∀ x ∈ b.inner, Script .expr .plain x.expr x.steps := by
  cases a with
  | member dot name => exact ⟨.member dot name, rfl, fits, by simp [Suffix.inner]⟩
  | index bracket close i =>
    obtain ⟨x, rfl, script, -⟩ := inner i (by simp [Suffix.inner])
    exact ⟨.index bracket close x, rfl, fits, by simpa [Suffix.inner] using script⟩

/-- Accesses are applied all at once. -/
theorem accessedBy_fold (rules : Rules) (e : Surface.Expr) (suffixes : List Suffix) :
    Build.expr rules (accessedBy e suffixes) = (do
      let subject ← Build.expr rules e
      let accesses ← (suffixes.map (Suffix.map (Build.expr rules))).mapM (Suffix.built rules)
      return Build.foldAccesses subject accesses) := by
  rw [accessedBy_build]
  cases built : Build.expr rules e with
  | error v => rfl
  | ok subject =>
    have start := congrArg Range.start (Build.expr_range rules e built)
    have same : Build.nestAccesses e.range.start subject = Build.foldAccesses subject := by
      funext accesses
      rw [Build.foldAccesses_eq, start]
    exact congrArg (fun nest => (do return nest (← List.mapM _ _) : Checked Expr)) same

/-- Accesses all at once. -/
theorem Scripted.access {p : Phrase} {suffixes : List (Suffix (Checked Expr))}
    (h : Scripted rules .primary place (lookAccess look suffixes) p)
    (fits : ∀ a ∈ suffixes, a.Fits)
    (inner : ∀ a ∈ suffixes, ∀ x ∈ a.inner,
      Scripted rules .expr .plain (some (.symbol .bracketClose)) x) :
    Scripted rules .accessed place look
      ⟨do
        let subject ← p.expr
        let accesses ← suffixes.mapM (Suffix.built rules)
        return Build.foldAccesses subject accesses,
      p.steps ++ suffixes.flatMap Suffix.steps⟩ := by
  obtain ⟨x, rfl, script, openEnd⟩ := h
  obtain ⟨written, rfl, scripts⟩ := exists_map fun a ha => exists_suffix (fits a ha) (inner a ha)
  have steps : (written.map (Suffix.map (Build.expr rules))).flatMap Suffix.steps =
      written.flatMap Suffix.steps := by
    simp [List.flatMap_map]
  rw [steps]
  refine ⟨⟨accessedBy x.expr written, x.steps ++ written.flatMap Suffix.steps⟩, ?_, ?_, ?_⟩
  · exact congrArg (Piece.mk · _) (accessedBy_fold rules x.expr written)
  · cases written with
    | nil => simpa [accessedBy] using Script.bare script
    | cons a written =>
      refine .accessed (a :: written) (by simp) ?_ script (fun b hb => (scripts b hb).1)
        fun b hb => (scripts b hb).2
      by_contra isOpen
      have ends := openEnd (by simpa using isOpen)
      rw [lookAccess_map] at ends
      exact not_ends_access (scripts a (by simp)).1 look (by cases a <;> exact ends)
  · intro isOpen
    cases written with
    | nil => exact openEnd isOpen
    | cons a written => cases isOpen

/-! ### Chains -/

/-- An operand alone, as a phrase of the last level of operators. -/
theorem Layered.operand {p : Phrase} (h : Scripted rules .operand place look p)
    (quiet : look.any startsAccessor = false) :
    ∃ first, Layered rules 5 place look p first [] (.leaf first) := by
  obtain ⟨x, rfl, script, openEnd⟩ := h
  exact ⟨x, {
    script := script
    ops := by simp
    operands := by simp
    closed := by simp
    last := by simpa using openEnd
    steps := by simp
    grouped := trivial
    tight := (by decide : 5 < 7)
    first_eq := rfl
    rest_eq := rfl
    built := rfl
    reach_eq := script.range_eq
    quiet := quiet
    looser := fun op _ => op.precedence_le }⟩

/-- What the next level derives, the level derives if nothing is ahead that the next goes on
with. -/
theorem Layered.pass {level : Nat} {p : Phrase} {first : Piece} {links : List Link}
    {t : Grouping.Tree Piece} (h : Layered rules (level + 1) place look p first links t)
    (done : Done (.layer (level + 1)) look) : Layered rules level place look p first links t where
  __ := h
  tight := Nat.lt_of_succ_lt h.tight
  looser op ahead := by
    have le := h.looser op ahead
    have ne := done.layer ahead
    omega

/-- What is derived one level tighter is bound tighter than the level, whether that is a level of
operators or an operand. -/
theorem Layered.of_tier {level : Nat} {p : Phrase} (below : level < 6)
    (h : Means rules (tier (level + 1)) place look p) (done : Done (tier (level + 1)) look) :
    ∃ first links t, Layered rules level place look p first links t ∧ level + 1 < t.strength := by
  unfold tier at h done
  split at h
  · rename_i inner
    rw [if_pos inner] at done
    obtain ⟨first, links, t, layered⟩ := h
    exact ⟨first, links, t, layered.pass done, layered.tight⟩
  · rename_i last
    obtain rfl : level = 5 := by omega
    obtain ⟨first, layered⟩ := Layered.operand h.1 h.2
    exact ⟨first, [], .leaf first, layered, (by decide : 6 < 7)⟩

/-- No operand of a phrase ends open in front of an operator. -/
theorem Layered.shut {level : Nat} {sign : Token} {op : BinaryOp} {p : Phrase} {first : Piece}
    {links : List Link} {t : Grouping.Tree Piece}
    (h : Layered rules level place (some sign.kind) p first links t)
    (isOp : binaryOp? sign.kind = some op) :
    ∀ e ∈ first.expr :: links.map fun l => l.operand.expr, endsOpen e = false := by
  intro e he
  generalize operands : (first.expr :: links.map fun l => l.operand.expr) = es at he
  have ne : es ≠ [] := by
    rintro rfl
    cases operands
  rw [← List.dropLast_append_getLast ne, List.mem_append, List.mem_singleton] at he
  rcases he with he | rfl
  · exact h.closed e (operands ▸ he)
  · by_contra isOpen
    refine not_ends isOp (h.last _ ?_ (by simpa using isOpen))
    rw [operands]
    exact List.getLast?_eq_some_getLast ne

/-- An operator of a level between what the level derives and what the next one does. -/
theorem Layered.binary {level : Nat} {op : BinaryOp} {sign : Token} {l r : Phrase}
    {first first' : Piece} {links links' : List Link} {t t' : Grouping.Tree Piece}
    (isOp : binaryOp? sign.kind = some op) (here : op.precedence = level + 1)
    (left : Layered rules level place (some sign.kind) l first links t)
    (right : Layered rules level .plain look r first' links' t')
    (tight : level + 1 < t'.strength) :
    Layered rules level place look
      ⟨do
        let left ← l.expr
        let right ← r.expr
        return .binary (spanOf (l.steps ++ ⟨sign, Expect.expr⟩ :: r.steps)) op left right,
      l.steps ++ ⟨sign, Expect.expr⟩ :: r.steps⟩
      first (links ++ ⟨op, sign, first'⟩ :: links') (.node op t t') := by
  have nel : l.steps ≠ [] := by simp [left.steps, left.script.ne_nil]
  have ner : r.steps ≠ [] := by simp [right.steps, right.script.ne_nil]
  -- a node's range is that of its steps: from the first token of the left to the last of the right
  have span : (reach t).join (reach t') =
      spanOf (l.steps ++ ⟨sign, Expect.expr⟩ :: r.steps) := by
    rw [left.reach_eq, right.reach_eq, spanOf_append nel (by simp), spanOf_cons _ ner]
    rfl
  have operands : (first.expr :: (links ++ ⟨op, sign, first'⟩ :: links').map fun l =>
      l.operand.expr) = (first.expr :: links.map fun l => l.operand.expr) ++
        (first'.expr :: links'.map fun l => l.operand.expr) := by
    simp
  exact {
    script := left.script
    ops := List.forall_mem_append.2 ⟨left.ops, List.forall_mem_cons.2 ⟨isOp, right.ops⟩⟩
    operands := List.forall_mem_append.2
      ⟨left.operands, List.forall_mem_cons.2 ⟨right.script, right.operands⟩⟩
    closed := by
      rw [operands, List.dropLast_append_of_ne_nil (by simp)]
      exact List.forall_mem_append.2 ⟨left.shut isOp, right.closed⟩
    last := by
      rw [operands, List.getLast?_append_of_ne_nil _ (by simp)]
      exact right.last
    steps := by simp [left.steps, right.steps, Link.steps]
    -- the left may have operators of this level, the right only tighter ones: to the left they nest
    grouped := by
      refine ⟨?_, ?_, left.grouped, right.grouped⟩
      · rw [here]
        exact left.tight
      · rw [here]
        exact tight
    tight := by
      show level < op.precedence
      omega
    first_eq := left.first_eq
    rest_eq := by simp [left.rest_eq, right.rest_eq, right.first_eq]
    built := by
      show _ = (along rules t >>= fun left => along rules t' >>= fun right => _)
      rw [← left.built, ← right.built, span]
    reach_eq := span
    quiet := right.quiet
    looser := right.looser }

/-- What a level derives is written like an expression. -/
theorem Layered.written {level : Nat} {p : Phrase} {first : Piece} {links : List Link}
    {t : Grouping.Tree Piece} (h : Layered rules level place look p first links t) :
    Script .expr place (chainedWith first.expr links) p.steps := by
  rw [h.steps]
  cases links with
  | nil => simpa [chainedWith] using Script.single h.script
  | cons l links => exact .chain (l :: links) (by simp) h.script h.ops h.operands h.closed

/-- What the loosest level derives is an expression. -/
theorem Layered.expr {p : Phrase} {first : Piece} {links : List Link} {t : Grouping.Tree Piece}
    (h : Layered rules 0 place look p first links t) (done : Done (.layer 0) look) :
    Scripted rules .expr place look p ∧ Ends look := by
  have ends : Ends look := by
    refine ⟨h.quiet, ?_⟩
    cases ahead : look.bind binaryOp? with
    | none => rfl
    | some op =>
      have le := h.looser op ahead
      have ne := done.layer ahead
      have pos := op.precedence_pos
      omega
  refine ⟨⟨⟨chainedWith first.expr links, p.steps⟩, ?_, h.written, fun _ => ends⟩, ends⟩
  have built := along_build rules h.grouped h.rest_eq
  rw [h.first_eq, ← h.built] at built
  show (⟨Build.expr rules (chainedWith first.expr links), p.steps⟩ : Phrase) = p
  rw [← built]

/-- Operands and the operators in front of them that are derived come from such that are written.
None but the last ends open. -/
theorem exists_links {links : List (Link (Checked Expr))}
    (ops : ∀ l ∈ links, binaryOp? l.sign.kind = some l.op)
    (each : ∀ before l after, links = before ++ l :: after →
      Scripted rules .operand .plain (lookBehind look after) l.operand) :
    ∃ written : List Link, written.map (Link.map (Build.expr rules)) = links ∧
      (∀ l ∈ written, Script .operand .plain l.operand.expr l.operand.steps) ∧
      ∀ e ∈ (written.map fun l => l.operand.expr).dropLast, endsOpen e = false := by
  induction links with
  | nil => exact ⟨[], rfl, by simp, by simp⟩
  | cons l links ih =>
    obtain ⟨x, built, script, openEnd⟩ := each [] l links rfl
    obtain ⟨written, rfl, scripts, closed⟩ := ih (fun m hm => ops m (by simp [hm]))
      fun before m after eq => each (l :: before) m after (by rw [eq]; rfl)
    obtain ⟨op, sign, operand⟩ := l
    simp only at built
    subst built
    refine ⟨⟨op, sign, x⟩ :: written, rfl, List.forall_mem_cons.2 ⟨script, scripts⟩, ?_⟩
    cases written with
    | nil => simp
    | cons m written =>
      refine List.forall_mem_cons.2 ⟨?_, closed⟩
      by_contra isOpen
      exact not_ends (ops (m.map (Build.expr rules)) (by simp)) (openEnd (by simpa using isOpen))

/-- What is placed is forgotten again: the other grammar combines operands without their places. -/
theorem operands_build (rules : Rules) (links : List Link) :
    (do
      let placed ← Build.operands rules (links.map Link.link)
      return placed.map fun link => (link.1, link.2.2)) =
      (links.map (Link.map (Build.expr rules))).mapM
        (fun l => do return (l.op, ← l.operand.expr)) := by
  induction links with
  | nil => rfl
  | cons l links ih =>
    simp only [List.map_cons, Link.link, Build.operands, List.mapM_cons, ← ih, Link.map,
      Piece.expr_map, bind_assoc, pure_bind]

/-- Either front end builds a chain as it is built operator by operator. -/
theorem chainedWith_build (rules : Rules) (e : Surface.Expr) (links : List Link) :
    Build.expr rules (chainedWith e links) = (do
      let first ← Build.expr rules e
      let rest ← (links.map (Link.map (Build.expr rules))).mapM
        (fun l => do return (l.op, ← l.operand.expr))
      return Grouping.climb Build.combineBuilt first rest) := by
  cases links with
  | nil =>
    show _ = Build.expr rules e >>= fun first => pure first
    rw [bind_pure]
    rfl
  | cons l links =>
    rw [chainedWith, Build.expr, ← operands_build]
    cases built : Build.expr rules e with
    | error v => rfl
    | ok first =>
      cases placed : Build.operands rules ((l :: links).map Link.link) with
      | error v => rfl
      | ok rest =>
        have exact_ := (Build.operands_range rules _ placed).1
        have nested := Build.nestChain_frontEnd rules.frontEnd .flat (e.range, first) rest
          (Build.expr_range rules e built) exact_
        exact congrArg Except.ok nested

/-- Operators and operands all at once. -/
theorem Scripted.sequence {p : Phrase} {links : List (Link (Checked Expr))}
    (h : Scripted rules .operand place (lookBehind look links) p)
    (ops : ∀ l ∈ links, binaryOp? l.sign.kind = some l.op)
    (each : ∀ before l after, links = before ++ l :: after →
      Scripted rules .operand .plain (lookBehind look after) l.operand) (ends : Ends look) :
    Scripted rules .expr place look
      ⟨do
        let first ← p.expr
        let rest ← links.mapM fun l => do return (l.op, ← l.operand.expr)
        return Grouping.climb Build.combineBuilt first rest,
      p.steps ++ links.flatMap Link.steps⟩ := by
  obtain ⟨x, rfl, script, openEnd⟩ := h
  obtain ⟨written, rfl, scripts, closed⟩ := exists_links ops each
  have steps : (written.map (Link.map (Build.expr rules))).flatMap Link.steps =
      written.flatMap Link.steps := by
    simp [List.flatMap_map]
  rw [steps]
  refine ⟨⟨chainedWith x.expr written, x.steps ++ written.flatMap Link.steps⟩, ?_, ?_,
    fun _ => ends⟩
  · exact congrArg (Piece.mk · _) (chainedWith_build rules x.expr written)
  · cases written with
    | nil => simpa [chainedWith] using Script.single script
    | cons l written =>
      refine .chain (l :: written) (by simp) script ?_ scripts ?_
      · intro m hm
        exact ops (m.map (Build.expr rules)) (List.mem_map_of_mem hm)
      · refine List.forall_mem_cons.2 ⟨?_, closed⟩
        by_contra isOpen
        exact not_ends (ops (l.map (Build.expr rules)) (by simp))
          (openEnd (by simpa using isOpen))

/-! ### Operands without operators -/

/-- What is written between separators comes from expressions. -/
theorem exists_items {items : List Phrase} {close : Symbol}
    (each : ∀ x ∈ items, ∀ t ∈ separators close, Scripted rules .expr .plain (some t) x) :
    ∃ written : List Piece, written.map (Piece.build rules) = items ∧
      ∀ x ∈ written, Script .expr .plain x.expr x.steps := by
  refine exists_map fun x hx => ?_
  obtain ⟨y, built, script, -⟩ := each x hx (.symbol .comma) (by simp [separators])
  exact ⟨y, built, script⟩

/-- Keys and values in a map that are derived come from such that are written. -/
theorem exists_mapItems {items : List (ItemPiece (Checked Expr))} {close : Symbol}
    (keys : ∀ i ∈ items, Scripted rules .expr .plain (some i.colon.kind) i.key)
    (values : ∀ i ∈ items, ∀ t ∈ separators close, Scripted rules .expr .plain (some t) i.value) :
    ∃ written : List ItemPiece, written.map (ItemPiece.map (Build.expr rules)) = items ∧
      ∀ i ∈ written, Script .expr .plain i.key.expr i.key.steps ∧
        Script .expr .plain i.value.expr i.value.steps := by
  refine exists_map fun i hi => ?_
  obtain ⟨key, colon, value⟩ := i
  obtain ⟨k, rfl, script, -⟩ := keys _ hi
  obtain ⟨v, rfl, script', -⟩ := values _ hi (.symbol .comma) (by simp [separators])
  exact ⟨⟨k, colon, v⟩, rfl, script, script'⟩

/-- Members that are derived come from members that are written. -/
theorem exists_members {ms : List (MemberPiece (Checked Expr))} {close : Symbol}
    (values : ∀ m ∈ ms, ∀ t ∈ separators close, Scripted rules .expr .plain (some t) m.value) :
    ∃ written : List MemberPiece, written.map (MemberPiece.map (Build.expr rules)) = ms ∧
      ∀ m ∈ written, Script .expr .plain m.value.expr m.value.steps := by
  refine exists_map fun m hm => ?_
  obtain ⟨key, colon, value⟩ := m
  obtain ⟨v, rfl, script, -⟩ := values _ hm (.symbol .comma) (by simp [separators])
  exact ⟨⟨key, colon, v⟩, rfl, script⟩

/-- Parts of a string that are derived come from parts that are written. -/
theorem exists_parts {template : Template} {parts : List (PartPiece (Checked Expr))}
    (fits : ∀ x ∈ parts, x.Fits template)
    (inner : ∀ x ∈ parts, ∀ p ∈ x.inner,
      Scripted rules .expr .placeholder (some (.symbol .braceClose)) p) :
    ∃ written : List PartPiece, written.map (PartPiece.map (Build.expr rules)) = parts ∧
      ∀ x ∈ written, x.Fits template ∧
        ∀ p ∈ x.inner, Script .expr .placeholder p.expr p.steps := by
  refine exists_map fun x hx => ?_
  cases x with
  | text t => exact ⟨.text t, rfl, fits _ hx, by simp [PartPiece.inner]⟩
  | hole opener close h =>
    obtain ⟨options, body⟩ := h
    obtain ⟨p, rfl, script, -⟩ := inner _ hx body (by simp [PartPiece.inner])
    exact ⟨.hole opener close ⟨options, p⟩, rfl, fits _ hx, by simpa [PartPiece.inner] using script⟩

/-- A list of arguments has no comma at its end; that is one way for a list to be `Separated`. -/
theorem Joined.separated {after : Expect} {items : List (List Step)} {xs : List Step}
    (h : Joined after items xs) : Separated after items xs := by
  induction h with
  | nil => exact .nil
  | single item =>
    have alone : Separated after [item] (item ++ []) := .cons .nil
    rwa [List.append_nil] at alone
  | cons comma kind _ ih =>
    cases ih with
    | cons more => exact .cons (.cons comma kind more)

/-- A phrase of one token, or in brackets: nothing stands open at its end. -/
theorem Scripted.shut {p : Phrase} {e : Surface.Expr} (script : Script .primary place e p.steps)
    (built : Build.expr rules e = p.expr) (shut : endsOpen e = false) :
    Scripted rules .primary place look p := by
  refine ⟨⟨e, p.steps⟩, ?_, script, fun isOpen => ?_⟩
  · show (⟨Build.expr rules e, p.steps⟩ : Phrase) = p
    rw [built]
  · rw [shut] at isOpen
    cases isOpen

/-- What a grammar derives is built from a script. -/
theorem Derives.means {nonterminal : Nonterminal} {p : Phrase}
    (h : Derives rules nonterminal place look p) : Means rules nonterminal place look p := by
  induction h with
  -- the productions of the grammar with a nonterminal for each level
  | tree _ _ done ih =>
    obtain ⟨first, links, t, layered⟩ := ih
    exact layered.expr done
  | pass below _ done ih =>
    obtain ⟨first, links, t, layered, -⟩ := Layered.of_tier below ih done
    exact ⟨first, links, t, layered⟩
  | @binary place look l r level op sign mem isOp _ _ done ihl ihr =>
    obtain ⟨first, links, t, left⟩ := ihl
    have below : level < 6 := by
      have le := op.precedence_le
      have here := mem_layerOps.1 mem
      omega
    obtain ⟨first', links', t', right, tight⟩ := Layered.of_tier below ihr done
    exact ⟨_, _, _, Layered.binary isOp (mem_layerOps.1 mem) left right tight⟩
  | sign x isOp _ ih => exact ⟨ih.1.sign isOp, ih.2⟩
  | unsigned _ done ih =>
    obtain ⟨x, built, script, openEnd⟩ := ih
    exact ⟨⟨x, built, .unsigned script, openEnd⟩, done⟩
  | operand _ ih =>
    obtain ⟨x, built, script, openEnd⟩ := ih
    exact ⟨x, built, .bare script, openEnd⟩
  -- an access goes behind those that its subject already has
  | @suffix place look p a _ fits _ ih ihs =>
    obtain ⟨b, rfl, fits', inner⟩ := exists_suffix fits fun x hx => (ihs x hx).1
    rw [Suffix.steps_map]
    exact Scripted.suffix (by cases b <;> exact ih) fits' inner
  -- the productions of the grammar that takes runs
  | flat _ _ ih => exact ih
  | @sequence place look p links _ ops _ done ih ihs =>
    have quiet : look.any startsAccessor = false := by
      cases last : links.getLast? with
      | none =>
        obtain rfl := List.getLast?_eq_none_iff.1 last
        exact ih.2
      | some l =>
        obtain ⟨before, rfl⟩ := List.getLast?_eq_some_iff.1 last
        exact (ihs before l [] rfl).2
    have ends : Ends look := by
      refine ⟨quiet, ?_⟩
      cases look with
      | none => rfl
      | some t => simpa [Done, goesOn] using done
    exact ⟨ih.1.sequence ops (fun before l after eq => (ihs before l after eq).1) ends, ends⟩
  | bare _ ih =>
    obtain ⟨⟨x, built, script, openEnd⟩, quiet⟩ := ih
    exact ⟨⟨x, built, .unsigned script, openEnd⟩, quiet⟩
  | signs signs ne ops _ ih => exact ⟨ih.1.signs ne ops, ih.2⟩
  | access suffixes _ fits _ done ih ihs =>
    exact ⟨ih.access fits fun a ha x hx => (ihs a ha x hx).1, done⟩
  -- operands, which both grammars have in common
  | boolean t value kind => exact Scripted.shut (.boolean t value kind) rfl rfl
  | null t kind => exact Scripted.shut (.null t kind) rfl rfl
  | number t kind _ isNumber => exact Scripted.shut (.number kind t isNumber) rfl rfl
  | numberText t _ isNumber => exact Scripted.shut (.number _ t isNumber) rfl rfl
  | name t kind _ => exact Scripted.shut (.name t kind) rfl rfl
  | string q start close parts kind kind' fits _ _ ih =>
    obtain ⟨written, rfl, scripts⟩ := exists_parts fits fun x hx p hp => (ih x hx p hp).1
    have steps : (written.map (PartPiece.map (Build.expr rules))).flatMap
        (PartPiece.steps (.string q)) = written.flatMap (PartPiece.steps (.string q)) := by
      simp [List.flatMap_map]
    rw [steps]
    refine Scripted.shut (.string q start close written kind kind' (fun x hx => (scripts x hx).1)
      fun x hx => (scripts x hx).2) ?_ rfl
    rw [Build.expr, parts_build rules fun x hx => (scripts x hx).2]
  | array bracket close items kind kind' _ sep ih =>
    obtain ⟨written, rfl, scripts⟩ := exists_items fun x hx t ht => (ih x hx t ht).1
    rw [List.map_map] at sep
    refine Scripted.shut (.array bracket close written kind kind' scripts sep) ?_ rfl
    rw [Build.expr, exprs_build]
  | group paren close kind kind' _ ih =>
    obtain ⟨⟨x, rfl, script, -⟩, -⟩ := ih
    exact Scripted.shut (.group paren close kind kind' script) rfl rfl
  | pair paren comma close kind kind' kind'' _ _ ihl ihr =>
    obtain ⟨⟨x, rfl, left, -⟩, -⟩ := ihl
    obtain ⟨⟨y, rfl, right, -⟩, -⟩ := ihr
    exact Scripted.shut (.pair paren comma close kind kind' kind'' left right) rfl rfl
  | map brace close items kind kind' colons _ _ sep ihk ihv =>
    obtain ⟨written, rfl, scripts⟩ :=
      exists_mapItems (fun i hi => (ihk i hi).1) fun i hi t ht => (ihv i hi t ht).1
    rw [List.map_map] at sep
    refine Scripted.shut (.map brace close written kind kind' ?_ (fun i hi => (scripts i hi).1)
      (fun i hi => (scripts i hi).2) sep) ?_ rfl
    · intro i hi
      exact colons (i.map (Build.expr rules)) (List.mem_map_of_mem hi)
    · rw [Build.expr, pairs_build]
  | choice kwIf kwThen kwElse kind kind' kind'' _ _ _ iha ihb ihc =>
    obtain ⟨⟨x, rfl, a, -⟩, -⟩ := iha
    obtain ⟨⟨y, rfl, b, -⟩, -⟩ := ihb
    obtain ⟨⟨z, rfl, c, -⟩, ends⟩ := ihc
    refine ⟨⟨_, _⟩, ?_, .choice kwIf kwThen kwElse kind kind' kind'' a b c, fun _ => ends⟩
    simp only [Piece.steps_map, ← c.range_eq]
    rfl
  | apply name paren close arguments kind kind' kind'' _ joined ih =>
    obtain ⟨written, rfl, scripts⟩ := exists_items fun x hx t ht => (ih x hx t ht).1
    rw [List.map_map] at joined
    refine Scripted.shut (.apply name paren close written kind kind' kind'' scripts
      joined.separated) ?_ rfl
    rw [Build.expr, exprs_build]
  | struct name brace close ms kind kind' kind'' fits _ sep ih =>
    obtain ⟨written, rfl, scripts⟩ := exists_members fun m hm t ht => (ih m hm t ht).1
    rw [List.map_map] at sep
    refine Scripted.shut (.struct name brace close written kind kind' kind'' ?_ scripts sep) ?_ rfl
    · intro m hm
      exact fits (m.map (Build.expr rules)) (List.mem_map_of_mem hm)
    · rw [Build.expr, members_build]

/-- What is derived from any nonterminal is written like an expression of some layer. -/
theorem Derives.script {nonterminal : Nonterminal} {p : Phrase}
    (h : Derives rules nonterminal place look p) :
    ∃ level e, Script level place e p.steps := by
  have of_scripted : ∀ {level : Level}, Scripted rules level place look p →
      ∃ level e, Script level place e p.steps := by
    rintro level ⟨x, rfl, script, -⟩
    exact ⟨level, x.expr, script⟩
  have means := h.means
  cases nonterminal with
  | expr => exact of_scripted means.1
  | sequence => exact of_scripted means.1
  | primary => exact of_scripted means
  | core => exact of_scripted means
  | access => exact of_scripted means.1
  | unary => exact of_scripted means.1
  | prefixed => exact of_scripted means.1
  | layer level =>
    obtain ⟨first, links, t, layered⟩ := means
    exact ⟨.expr, _, layered.written⟩

end Sound

end Wdl.Parser
