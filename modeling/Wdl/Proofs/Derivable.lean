import Wdl.Proofs.Derivations

/-!
# Wdl.Proofs.Derivable -- what a script writes is derived by either grammar

The converse of `Wdl.Proofs.Derivations`. A script allows a little more than the grammars do: a comma
behind the last argument, literal text behind literal text, and a number of one notation in the text
of another. No scanner takes such steps (`Found`), and so what a parser takes is derived.

* `Awaited` and `Found` describe steps as a scanner takes them; `Separated.joined` and `Found.apart`
  draw from it what the productions ask for.
* `Clear level e look` says that nothing is ahead that makes more of an expression, which is what it
  takes to decide every conflict for the end of a phrase (`Done`).
* `derives_accessed` and `derives_signed` derive accesses and prefix operators in the way of either
  grammar.
* `Operands` is a chain whose operands are derived, each in front of the operator behind it.
  `derives_tier` puts them together level by level along the grouped tree, with `Derives.loosen`
  between the levels; `Operands.chain` does it for either grammar.
* `Script.derives` is the result, by induction over scripts with whatever is ahead of each part.
-/

namespace Wdl.Parser

variable {α : Type}

/-! ## From scripts to derivations

A scanner knows what is expected at each place, so a token that is taken was looked for behind the
token before (`Awaited`). The productions are stricter than scripts in three points, and each
follows from this: see `Separated.joined`, `Found.apart` and the field `classified`. -/

/-- The terminal that is looked for where a token may stand: numbers are looked for together,
whatever their notation. -/
def looked : Terminal → Terminal
  | .number _ => .number .decimal
  | t => t

/-- Every token is among those that are looked for behind the one before. -/
abbrev Awaited (xs : List Step) : Prop := xs.IsChain fun x y => looked y.token.kind ∈ x.after

/-- Steps as a scanner takes them: every token is awaited, and a number shows its notation. -/
structure Found (xs : List Step) : Prop where
  awaited : Awaited xs
  classified : ∀ x ∈ xs, ∀ kind, x.token.kind = .number kind →
    Numeral.classify x.token.chars = kind

namespace Found

variable {xs ys : List Step}

theorem left (h : Found (xs ++ ys)) : Found xs :=
  ⟨h.awaited.left_of_append, fun x hx => h.classified x (List.mem_append_left ys hx)⟩

theorem right (h : Found (xs ++ ys)) : Found ys :=
  ⟨h.awaited.right_of_append, fun x hx => h.classified x (List.mem_append_right xs hx)⟩

theorem tail {x : Step} (h : Found (x :: xs)) : Found xs := @right [x] xs h

theorem flatMap {f : α → List Step} {as : List α} (h : Found (as.flatMap f)) :
    ∀ a ∈ as, Found (f a) := by
  intro a ha
  obtain ⟨before, after, rfl⟩ := List.append_of_mem ha
  rw [List.flatMap_append, List.flatMap_cons] at h
  exact h.right.left

theorem more {after : Expect} {items : List (List Step)} (more : More after items xs)
    (h : Found xs) : ∀ item ∈ items, Found item := by
  induction more with
  | nil => simp
  | trailing comma _ => simp
  | cons comma _ _ ih => exact List.forall_mem_cons.2 ⟨h.tail.left, ih h.tail.right⟩

theorem separated {after : Expect} {items : List (List Step)} (sep : Separated after items xs)
    (h : Found xs) : ∀ item ∈ items, Found item := by
  cases sep with
  | nil => simp
  | cons rest => exact List.forall_mem_cons.2 ⟨h.left, h.right.more rest⟩

end Found

/-- Inside a part of a string, steps are taken as they are outside of it. -/
theorem Found.part {template : Template} {x : PartPiece α} (h : Found (x.steps template)) :
    ∀ p ∈ x.inner, Found p.steps := by
  cases x with
  | text t => simp [PartPiece.inner]
  | hole opener close hole =>
    intro p hp
    obtain rfl := List.mem_singleton.1 hp
    exact h.tail.left.right

/-- Inside the brackets of an access, steps are taken as they are outside of them. -/
theorem Found.suffix {a : Suffix α} (h : Found a.steps) : ∀ p ∈ a.inner, Found p.steps := by
  cases a with
  | member dot name => simp [Suffix.inner]
  | index bracket close inner =>
    intro p hp
    obtain rfl := List.mem_singleton.1 hp
    exact h.tail.left

/-- Where no end of a list is looked for behind a comma, none stands there. -/
theorem Separated.joined {after : Expect} {items : List (List Step)} {xs : List Step} {close : Step}
    (h : Separated after items xs) (found : Found (xs ++ [close]))
    (unlooked : looked close.token.kind ∉ after) : Joined after items xs := by
  cases h with
  | nil => exact .nil
  | @cons item items ys more =>
    rw [List.append_assoc] at found
    induction more generalizing item with
    | nil => simpa using Joined.single item
    | trailing comma _ =>
      have pair := List.isChain_cons_cons.1 found.right.awaited
      exact absurd pair.1 unlooked
    | @cons next items ys comma kind more ih =>
      rw [List.cons_append, List.append_assoc] at found
      exact .cons comma kind (ih found.right.tail)

/-- Literal text does not stand behind literal text, where it is not looked for. -/
theorem Found.apart {template : Template} {parts : List (PartPiece α)}
    (h : Found (parts.flatMap (PartPiece.steps template)))
    (fits : ∀ x ∈ parts, x.Fits template) (unlooked : looked template.text ∉ template.afterText) :
    parts.IsChain fun x y => x.isText = false ∨ y.isText = false := by
  induction parts with
  | nil => exact .nil
  | cons x parts ih =>
    have rest := ih h.right fun y hy => fits y (by simp [hy])
    cases parts with
    | nil => exact .singleton x
    | cons y parts =>
      refine List.isChain_cons_cons.2 ⟨?_, rest⟩
      cases x with
      | hole opener close hole => exact .inl rfl
      | text t =>
        cases y with
        | hole opener close hole => exact .inr rfl
        | text t' =>
          have pair := h.awaited
          simp only [List.flatMap_cons, PartPiece.steps, List.cons_append, List.nil_append,
            List.isChain_cons_cons] at pair
          have kind : t'.kind = template.text := fits (.text t') (by simp)
          rw [kind] at pair
          exact absurd pair.1 unlooked

section Complete

variable {rules : Rules} {place : Place} {look : Option Terminal}

/-- Nothing is ahead that makes more of an expression of a layer: no opening bracket behind a name,
no access behind an operand, and no operator behind a whole expression or a choice at its end. -/
structure Clear (level : Level) (e : Surface.Expr) (look : Option Terminal) : Prop where
  unclaimed : look.any claims = false
  quiet : level ≠ .primary → look.any startsAccessor = false
  ends : level = .expr ∨ endsOpen e = true → Ends look

/-- No expression goes on with a terminal that settles it. -/
theorem clear_of_settles {level : Level} {e : Surface.Expr} {t : Terminal}
    (h : settles t = true) : Clear level e (some t) := by
  have parts : claims t = false ∧ startsAccessor t = false ∧ binaryOp? t = none := by
    unfold settles at h
    split at h <;> simp_all [claims]
  obtain ⟨unclaimed, quiet, none⟩ := parts
  exact ⟨unclaimed, fun _ => quiet, fun _ => ⟨quiet, none⟩⟩

/-- An operator is behind an operand that does not end with a choice. -/
theorem clear_of_operator {e : Surface.Expr} {t : Terminal} {op : BinaryOp}
    (h : binaryOp? t = some op) (closed : endsOpen e = false) : Clear .operand e (some t) := by
  obtain ⟨quiet, paren, brace, -⟩ := binaryOp_of_kind h
  refine ⟨?_, fun _ => quiet, ?_⟩
  · show claims t = false
    unfold claims
    split
    · exact absurd rfl paren
    · exact absurd rfl brace
    · rfl
  · rintro (⟨⟨⟩⟩ | isOpen)
    rw [closed] at isOpen
    cases isOpen

/-- An access is behind an operand that does not end with a choice. -/
theorem clear_of_access {e : Surface.Expr} {a : Suffix} (look : Option Terminal)
    (suffixes : List Suffix) (fits : a.Fits)
    (closed : endsOpen e = false) : Clear .primary e (lookAccess look (a :: suffixes)) := by
  refine ⟨?_, fun other => absurd rfl other, ?_⟩
  · cases a with
    | member dot name => simp [lookAccess, fits.1, claims]
    | index bracket close inner => simp [lookAccess, fits.1, claims]
  · rintro (⟨⟨⟩⟩ | isOpen)
    rw [closed] at isOpen
    cases isOpen

/-- What a grammar derives an expression of a layer from. -/
def layerOf (fe : FrontEnd) : Level → Nonterminal
  | .primary => .primary
  | .accessed => match fe with | .tree => .core | .flat => .access
  | .operand => match fe with | .tree => .unary | .flat => .prefixed
  | .expr => .expr

/-! ### Accesses and prefix operators

The expressions inside are derived by assumption, in front of the token that closes them. What is
left to do is to choose productions, and that depends on the grammar: the one that nests derives
each access and each prefix operator in a production of its own, with the terminals behind it
changing as it goes. -/

/-- What is ahead of some accesses is ahead of those before them once these are put in front. -/
theorem lookAccess_append (suffixes more : List (Suffix α)) :
    lookAccess look (suffixes ++ more) = lookAccess (lookAccess look more) suffixes := by
  cases suffixes with
  | nil => rfl
  | cons a suffixes => cases a <;> rfl

/-- The grammar that nests accesses derives them one by one. -/
theorem derives_core {e : Surface.Expr} {xs : List Step} {suffixes : List Suffix}
    (script : Script .primary place e xs)
    (subject : Derives rules .primary place (lookAccess look suffixes) ⟨Build.expr rules e, xs⟩)
    (fits : ∀ a ∈ suffixes, a.Fits)
    (inner : ∀ a ∈ suffixes, ∀ x ∈ a.inner,
      Derives rules .expr .plain (some (.symbol .bracketClose)) (x.build rules)) :
    Derives rules .core place look
      ⟨Build.expr rules (accessedBy e suffixes), xs ++ suffixes.flatMap Suffix.steps⟩ := by
  induction suffixes using List.reverseRecOn generalizing look with
  | nil =>
    rw [List.flatMap_nil, List.append_nil]
    exact .operand subject
  | append_singleton suffixes a ih =>
    rw [lookAccess_append] at subject
    have before := ih subject (fun b hb => fits b (by simp [hb])) fun b hb => inner b (by simp [hb])
    have next : Derives rules .core place look _ := .suffix (a.map (Build.expr rules))
      (by cases a <;> exact before) ((Suffix.fits_map _ a).2 (fits a (by simp))) (by
        rw [Suffix.inner_map]
        exact List.forall_mem_map.2 (inner a (by simp)))
    rw [Suffix.steps_map] at next
    rw [accessedBy_concat rules script, List.flatMap_append, List.flatMap_singleton,
      ← List.append_assoc]
    exact next

/-- Either grammar derives an operand with its accesses. -/
theorem derives_accessed {e : Surface.Expr} {xs : List Step} {suffixes : List Suffix}
    (script : Script .primary place e xs)
    (subject : Derives rules .primary place (lookAccess look suffixes) ⟨Build.expr rules e, xs⟩)
    (fits : ∀ a ∈ suffixes, a.Fits)
    (inner : ∀ a ∈ suffixes, ∀ x ∈ a.inner,
      Derives rules .expr .plain (some (.symbol .bracketClose)) (x.build rules))
    (quiet : look.any startsAccessor = false) :
    Derives rules (layerOf rules.frontEnd .accessed) place look
      ⟨Build.expr rules (accessedBy e suffixes), xs ++ suffixes.flatMap Suffix.steps⟩ := by
  -- one production for each access, or one for all of them
  cases frontEnd : rules.frontEnd with
  | tree => exact derives_core script subject fits inner
  | flat =>
    have whole := Derives.access (suffixes.map (Suffix.map (Build.expr rules)))
      (by rwa [lookAccess_map])
      (List.forall_mem_map.2 fun a ha => (Suffix.fits_map _ a).2 (fits a ha))
      (List.forall_mem_map.2 fun a ha => by
        rw [Suffix.inner_map]
        exact List.forall_mem_map.2 (inner a ha))
      quiet
    have steps : (suffixes.map (Suffix.map (Build.expr rules))).flatMap Suffix.steps =
        suffixes.flatMap Suffix.steps := by
      simp [List.flatMap_map]
    rw [steps] at whole
    rw [accessedBy_fold]
    exact whole

/-- The grammar that nests prefix operators derives them one by one. -/
theorem derives_unary {e : Surface.Expr} {xs : List Step} {signs : List Sign} {x : Sign}
    (script : Script .accessed .plain e xs)
    (operand : Derives rules .core .plain look ⟨Build.expr rules e, xs⟩)
    (ops : ∀ y ∈ x :: signs, unaryOp? y.token.kind = some y.op)
    (quiet : look.any startsAccessor = false) :
    Derives rules .unary place look
      ⟨Build.expr rules (signedBy e (x :: signs)), (x :: signs).map Sign.step ++ xs⟩ := by
  have behind : Derives rules .unary .plain look
      ⟨Build.expr rules (signedBy e signs), signs.map Sign.step ++ xs⟩ := by
    induction signs generalizing x with
    | nil => exact .unsigned operand quiet
    | cons y signs ih =>
      have inner := ih fun z hz => ops z (List.mem_cons_of_mem x hz)
      rw [signedBy_cons rules script]
      exact .sign y (ops y (by simp)) inner
  rw [signedBy_cons rules script]
  exact .sign x (ops x (by simp)) behind

/-- Either grammar derives an operand with its prefix operators. -/
theorem derives_signed {e : Surface.Expr} {xs : List Step} {signs : List Sign} (ne : signs ≠ [])
    (script : Script .accessed .plain e xs)
    (operand : Derives rules (layerOf rules.frontEnd .accessed) .plain look
      ⟨Build.expr rules e, xs⟩)
    (ops : ∀ x ∈ signs, unaryOp? x.token.kind = some x.op)
    (quiet : look.any startsAccessor = false) :
    Derives rules (layerOf rules.frontEnd .operand) place look
      ⟨Build.expr rules (signedBy e signs), signs.map Sign.step ++ xs⟩ := by
  cases frontEnd : rules.frontEnd with
  | tree =>
    rw [frontEnd] at operand
    obtain ⟨x, signs, rfl⟩ := List.exists_cons_of_ne_nil ne
    exact derives_unary script operand ops quiet
  | flat =>
    rw [frontEnd] at operand
    rw [signedBy_fold rules script]
    exact .signs signs ne ops operand

/-- Either grammar derives an operand without prefix operators. -/
theorem derives_unsigned {p : Phrase}
    (operand : Derives rules (layerOf rules.frontEnd .accessed) place look p)
    (quiet : look.any startsAccessor = false) :
    Derives rules (layerOf rules.frontEnd .operand) place look p := by
  cases frontEnd : rules.frontEnd with
  | tree =>
    rw [frontEnd] at operand
    exact .unsigned operand quiet
  | flat =>
    rw [frontEnd] at operand
    exact .bare operand

/-! ### Chains

A chain is derived along its grouped tree, `Grouping.treeOf`. At each node the operator between the
two sides is ahead of the left one; it is not tighter than what the left side derives, and that
decides the conflict for the end of the phrase. -/

/-- Operands with operators between them, each derived in front of what is behind it. -/
structure Operands (rules : Rules) (place : Place) (look : Option Terminal) (first : Piece)
    (links : List Link) : Prop where
  script : Script .operand place first.expr first.steps
  derived : Derives rules (layerOf rules.frontEnd .operand) place (lookBehind look links)
    (first.build rules)
  ops : ∀ l ∈ links, binaryOp? l.sign.kind = some l.op
  scripts : ∀ l ∈ links, Script .operand .plain l.operand.expr l.operand.steps
  each : ∀ before l after, links = before ++ l :: after →
    Derives rules (layerOf rules.frontEnd .operand) .plain (lookBehind look after)
      (l.operand.build rules)

/-- What is ahead of some operands is ahead of those before them once these are put in front. -/
theorem lookBehind_append (links more : List (Link α)) :
    lookBehind look (links ++ more) = lookBehind (lookBehind look more) links := by
  cases links <;> rfl

namespace Operands

variable {first : Piece} {links more : List Link} {l : Link}

/-- The operands up to an operator. -/
theorem left (h : Operands rules place look first (links ++ l :: more)) :
    Operands rules place (some l.sign.kind) first links where
  script := h.script
  derived := lookBehind_append links (l :: more) ▸ h.derived
  ops m hm := h.ops m (List.mem_append_left _ hm)
  scripts m hm := h.scripts m (List.mem_append_left _ hm)
  each before m after eq := by
    have here := h.each before m (after ++ l :: more) (by rw [eq]; simp)
    rwa [lookBehind_append] at here

/-- The operands behind an operator. -/
theorem right (h : Operands rules place look first (links ++ l :: more)) :
    Operands rules .plain look l.operand more where
  script := h.scripts l (by simp)
  derived := h.each links l more rfl
  ops m hm := h.ops m (by simp [hm])
  scripts m hm := h.scripts m (by simp [hm])
  each before m after eq := h.each (links ++ l :: before) m after (by rw [eq]; simp)

/-- A tree over operands reaches from the first token of the first one to the last token of the
last one. -/
theorem reach_eq {t : Grouping.Tree Piece} (h : Operands rules place look first links)
    (first_eq : t.first = first) (rest_eq : t.rest = links.map fun l => (l.op, l.operand)) :
    reach t = spanOf (first.steps ++ links.flatMap Link.steps) := by
  induction t generalizing place look first links with
  | leaf x =>
    obtain rfl : links = [] := List.map_eq_nil_iff.1 rest_eq.symm
    subst first_eq
    rw [List.flatMap_nil, List.append_nil]
    exact h.script.range_eq
  | node op l r ihl ihr =>
    rw [Grouping.Tree.rest_node] at rest_eq
    obtain ⟨before, others, rfl, hl, hr⟩ := List.map_eq_append_iff.1 rest_eq.symm
    obtain ⟨link, after, rfl, middle, hr⟩ := List.map_eq_cons_iff.1 hr
    have ne : first.steps ++ before.flatMap Link.steps ≠ [] := by simp [h.script.ne_nil]
    have ne' : link.operand.steps ++ after.flatMap Link.steps ≠ [] := by
      simp [h.right.script.ne_nil]
    have split : first.steps ++ (before ++ link :: after).flatMap Link.steps =
        (first.steps ++ before.flatMap Link.steps) ++ ⟨link.sign, Expect.expr⟩ ::
          (link.operand.steps ++ after.flatMap Link.steps) := by
      simp [Link.steps]
    rw [split, spanOf_append ne (by simp), spanOf_cons _ ne',
      ← ihl h.left first_eq hl.symm, ← ihr h.right (congrArg Prod.snd middle).symm hr.symm]
    rfl

end Operands

/-- A level is complete if the operator ahead, if there is one, is of a looser level. -/
theorem done_tier {level : Nat}
    (looser : ∀ op, look.bind binaryOp? = some op → op.precedence ≤ level) :
    Done (tier level) look := by
  unfold tier
  split
  · cases look with
    | none => rfl
    | some t =>
      cases isOp : binaryOp? t with
      | none => simp [Done, goesOn, isOp]
      | some op =>
        have tight := looser op isOp
        have notHere : op ∉ layerOps level := by
          rw [mem_layerOps]
          omega
        simpa [Done, goesOn, isOp] using notHere
  · cases look <;> rfl

/-- What a tighter level derives, a looser one derives if the operator ahead, if there is one, is
not tighter than those of the looser one. -/
theorem Derives.loosen {low high : Nat} {p : Phrase} (h : Derives rules (tier high) place look p)
    (le : low ≤ high) (bound : high ≤ 6)
    (looser : ∀ op, look.bind binaryOp? = some op → op.precedence ≤ low + 1) :
    Derives rules (tier low) place look p := by
  induction high, le using Nat.le_induction with
  | base => exact h
  | succ high le ih =>
    have done : Done (tier (high + 1)) look := done_tier fun op ahead => by
      have := looser op ahead
      omega
    have below : high < 6 := by omega
    have step : Derives rules (.layer high) place look p := .pass below h done
    rw [tier, if_pos below] at ih
    exact ih step (by omega)

/-- The grammar with a nonterminal for each level derives operands along their grouped tree. -/
theorem derives_tier (tree : rules.frontEnd = .tree) {level : Nat} {first : Piece}
    {links : List Link} {t : Grouping.Tree Piece} (h : Operands rules place look first links)
    (first_eq : t.first = first) (rest_eq : t.rest = links.map fun l => (l.op, l.operand))
    (grouped : t.Grouped) (tight : level < t.strength)
    (looser : ∀ op, look.bind binaryOp? = some op → op.precedence ≤ level + 1) :
    Derives rules (tier level) place look
      ⟨along rules t, first.steps ++ links.flatMap Link.steps⟩ := by
  induction t generalizing place look first links level with
  | leaf x =>
    obtain rfl : links = [] := List.map_eq_nil_iff.1 rest_eq.symm
    subst first_eq
    have operand := h.derived
    rw [tree] at operand
    rw [List.flatMap_nil, List.append_nil]
    have last : Derives rules (tier 6) place look _ := operand
    exact last.loosen (Nat.le_of_lt_succ tight) (Nat.le_refl 6) looser
  | node op l r ihl ihr =>
    have whole := h.reach_eq first_eq rest_eq
    rw [Grouping.Tree.rest_node] at rest_eq
    obtain ⟨before, others, rfl, hl, hr⟩ := List.map_eq_append_iff.1 rest_eq.symm
    obtain ⟨link, after, rfl, middle, rest⟩ := List.map_eq_cons_iff.1 hr
    obtain ⟨rfl, operand⟩ := Prod.mk.inj middle
    obtain ⟨tightl, tightr, groupedl, groupedr⟩ := grouped
    have isOp := h.ops link (by simp)
    have pos := link.op.precedence_pos
    have le := link.op.precedence_le
    obtain ⟨here, eq⟩ : ∃ here, link.op.precedence = here + 1 :=
      ⟨link.op.precedence - 1, by omega⟩
    have above : level ≤ here := by
      have : level < link.op.precedence := tight
      omega
    -- the left operand may go on with operators of this level, the right one may not
    have left : Derives rules (tier here) place (some link.sign.kind) _ :=
      ihl h.left first_eq hl.symm groupedl (by omega) (by
        intro op ahead
        obtain rfl : link.op = op := Option.some.inj (isOp.symm.trans ahead)
        omega)
    have right : Derives rules (tier (here + 1)) .plain look _ :=
      ihr h.right operand.symm rest.symm groupedr (by omega) (by
        intro op ahead
        have := looser op ahead
        omega)
    rw [tier, if_pos (by omega)] at left
    have done : Done (tier (here + 1)) look := done_tier fun op ahead => by
      have := looser op ahead
      omega
    have binary := Derives.binary link.sign (mem_layerOps.2 eq) isOp left right done
    have steps : first.steps ++ (before ++ link :: after).flatMap Link.steps =
        (first.steps ++ before.flatMap Link.steps) ++ ⟨link.sign, Expect.expr⟩ ::
          (link.operand.steps ++ after.flatMap Link.steps) := by
      simp [Link.steps]
    have here_eq : tier here = .layer here := by
      rw [tier, if_pos (by omega)]
    rw [← steps, ← whole, ← here_eq] at binary
    exact binary.loosen above (by omega) looser

/-- No operator is looser than the loosest level. -/
theorem strength_pos (t : Grouping.Tree α) : 0 < t.strength := by
  cases t with
  | leaf x => exact (by decide : 0 < 7)
  | node op l r => exact op.precedence_pos

/-- Either grammar derives a chain of operands. -/
theorem Operands.chain {first : Piece} {links : List Link}
    (h : Operands rules place look first links) (ends : Ends look) :
    Derives rules .expr place look
      ⟨Build.expr rules (chainedWith first.expr links),
        first.steps ++ links.flatMap Link.steps⟩ := by
  have last : ∀ op, look.bind binaryOp? = some op → False := by
    intro op ahead
    rw [ends.2] at ahead
    cases ahead
  cases frontEnd : rules.frontEnd with
  -- from the loosest level down, along the tree that there is
  | tree =>
    have grouped := Grouping.treeOf_grouped first (links.map fun l => (l.op, l.operand))
    have first_eq := Grouping.first_treeOf first (links.map fun l => (l.op, l.operand))
    have rest_eq := Grouping.rest_treeOf first (links.map fun l => (l.op, l.operand))
    have top : Derives rules (tier 0) place look _ :=
      derives_tier frontEnd h first_eq rest_eq grouped (strength_pos _)
        fun op ahead => (last op ahead).elim
    have done : Done (tier 0) look := done_tier fun op ahead => (last op ahead).elim
    rw [along_build rules grouped rest_eq, first_eq] at top
    exact .tree frontEnd top done
  -- one production takes all operands and operators as they stand
  | flat =>
    have operand := h.derived
    have each := h.each
    rw [frontEnd] at operand each
    have done : Done .sequence look := by
      cases look with
      | none => rfl
      | some t =>
        cases isOp : binaryOp? t with
        | none => simp [Done, goesOn, isOp]
        | some op => exact (last op isOp).elim
    have whole := Derives.sequence (links.map (Link.map (Build.expr rules)))
      (by rwa [lookBehind_map]) (List.forall_mem_map.2 h.ops) (by
        intro before m after eq
        obtain ⟨before, others, rfl, rfl, rest⟩ := List.map_eq_append_iff.1 eq
        obtain ⟨l, after, rfl, rfl, rfl⟩ := List.map_eq_cons_iff.1 rest
        rw [lookBehind_map]
        exact each before l after rfl) done
    have steps : (links.map (Link.map (Build.expr rules))).flatMap Link.steps =
        links.flatMap Link.steps := by
      simp [List.flatMap_map]
    rw [steps] at whole
    rw [chainedWith_build]
    exact .flat frontEnd whole

/-- The operands of a chain that is written are derived, each in front of what is behind it. -/
theorem operands_of_chain {e : Surface.Expr} {xs : List Step} {links : List Link}
    (script : Script .operand place e xs) (ops : ∀ l ∈ links, binaryOp? l.sign.kind = some l.op)
    (scripts : ∀ l ∈ links, Script .operand .plain l.operand.expr l.operand.steps)
    (closed : ∀ x ∈ (e :: links.map fun l => l.operand.expr).dropLast, endsOpen x = false)
    (derived : ∀ look, Clear .operand e look →
      Derives rules (layerOf rules.frontEnd .operand) place look ⟨Build.expr rules e, xs⟩)
    (each : ∀ l ∈ links, ∀ look, Clear .operand l.operand.expr look →
      Derives rules (layerOf rules.frontEnd .operand) .plain look (l.operand.build rules))
    (unclaimed : look.any claims = false) (ends : Ends look) :
    Operands rules place look ⟨e, xs⟩ links := by
  -- what is behind an operand: the next operator, or else what is behind the chain
  have clear : ∀ (x : Surface.Expr) (after : List Link), (∀ l ∈ after, l ∈ links) →
      (after ≠ [] → endsOpen x = false) → Clear .operand x (lookBehind look after) := by
    intro x after sub shut
    cases after with
    | nil => exact ⟨unclaimed, fun _ => ends.1, fun _ => ends⟩
    | cons l after => exact clear_of_operator (ops l (sub l (by simp))) (shut (by simp))
  refine ⟨script, derived _ (clear e links (fun l hl => hl) fun ne => ?_), ops, scripts, ?_⟩
  · obtain ⟨l, links, rfl⟩ := List.exists_cons_of_ne_nil ne
    exact closed e (by simp)
  · rintro before l after rfl
    refine each l (by simp) _ (clear _ after (fun m hm => by simp [hm]) fun ne => ?_)
    obtain ⟨m, after, rfl⟩ := List.exists_cons_of_ne_nil ne
    refine closed _ ?_
    rw [List.map_append, ← List.cons_append, List.dropLast_append_of_ne_nil (by simp)]
    exact List.mem_append_right _ (by simp)

/-! ### Operands without operators

One lemma for each construct in brackets or between marks. Its contents are derived in front of each
token that may be behind them, since a list does not know which of its items is the last. -/

/-- A separator settles the expression in front of it. -/
theorem separators_settle {close : Symbol} (closes : settles (.symbol close) = true) {t : Terminal}
    (h : t ∈ separators close) : settles t = true := by
  rcases List.mem_pair.1 h with rfl | rfl
  · rfl
  · exact closes

/-- A string is derived if the expressions in its placeholders are, and its literal text stands
apart. -/
theorem derives_string {q : Quote} {start close : Token} {parts : List PartPiece}
    (kind : start.kind = .mark q) (kind' : close.kind = .mark q)
    (fits : ∀ x ∈ parts, x.Fits (.string q))
    (scripts : ∀ x ∈ parts, ∀ p ∈ x.inner, Script .expr .placeholder p.expr p.steps)
    (found : Found (parts.flatMap (PartPiece.steps (.string q))))
    (each : ∀ x ∈ parts, ∀ p ∈ x.inner,
      Derives rules .expr .placeholder (some (.symbol .braceClose)) (p.build rules)) :
    Derives rules .primary place look
      ⟨Build.expr rules (.string ⟨start.start, close.stop⟩ (parts.map PartPiece.part)),
        ⟨start, Expect.inString q⟩ ::
          (parts.flatMap (PartPiece.steps (.string q)) ++ [⟨close, Expect.afterOperand⟩])⟩ := by
  have apart := found.apart fits (by cases q <;> decide)
  have whole : Derives rules .primary place look _ :=
    .string q start close (parts.map (PartPiece.map (Build.expr rules))) kind kind'
      (List.forall_mem_map.2 fun x hx => (PartPiece.fits_map _ _ x).2 (fits x hx))
      (by rw [List.isChain_map]; simpa using apart)
      (List.forall_mem_map.2 fun x hx => by
        rw [PartPiece.inner_map]
        exact List.forall_mem_map.2 (each x hx))
  have steps : (parts.map (PartPiece.map (Build.expr rules))).flatMap
      (PartPiece.steps (.string q)) = parts.flatMap (PartPiece.steps (.string q)) := by
    simp [List.flatMap_map]
  rw [steps, ← parts_build rules scripts] at whole
  exact whole

/-- An array is derived if its items are. -/
theorem derives_array {bracket close : Token} {items : List Piece} {xs : List Step}
    (kind : bracket.kind = .symbol .bracketOpen) (kind' : close.kind = .symbol .bracketClose)
    (sep : Separated Expect.exprOrBracket (items.map Piece.steps) xs)
    (each : ∀ x ∈ items, ∀ t ∈ separators .bracketClose,
      Derives rules .expr .plain (some t) (x.build rules)) :
    Derives rules .primary place look
      ⟨Build.expr rules (.array ⟨bracket.start, close.stop⟩ (items.map Piece.expr)),
        ⟨bracket, Expect.exprOrBracket⟩ :: (xs ++ [⟨close, Expect.afterOperand⟩])⟩ := by
  have whole : Derives rules .primary place look _ :=
    .array bracket close (items.map (Piece.build rules)) kind kind' (List.forall_mem_map.2 each)
      (by rwa [List.map_map])
  rw [← exprs_build] at whole
  exact whole

/-- A map is derived if its keys are, in front of a colon, and its values. -/
theorem derives_map {brace close : Token} {items : List ItemPiece} {xs : List Step}
    (kind : brace.kind = .symbol .braceOpen) (kind' : close.kind = .symbol .braceClose)
    (colons : ∀ i ∈ items, i.colon.kind = .symbol .colon)
    (sep : Separated Expect.exprOrBrace (items.map ItemPiece.steps) xs)
    (keys : ∀ i ∈ items, Derives rules .expr .plain (some i.colon.kind) (i.key.build rules))
    (values : ∀ i ∈ items, ∀ t ∈ separators .braceClose,
      Derives rules .expr .plain (some t) (i.value.build rules)) :
    Derives rules .primary place look
      ⟨Build.expr rules (.map ⟨brace.start, close.stop⟩ (items.map ItemPiece.item)),
        ⟨brace, Expect.exprOrBrace⟩ :: (xs ++ [⟨close, Expect.afterOperand⟩])⟩ := by
  have whole : Derives rules .primary place look _ :=
    .map brace close (items.map (ItemPiece.map (Build.expr rules))) kind kind'
      (List.forall_mem_map.2 colons) (List.forall_mem_map.2 keys) (List.forall_mem_map.2 values)
      (by rwa [List.map_map])
  rw [← pairs_build] at whole
  exact whole

/-- The alternative of a choice has what is ahead of the whole: there is no token that closes it. -/
theorem derives_choice {kwIf kwThen kwElse : Token} {a b c : Surface.Expr} {xs ys zs : List Step}
    (kind : kwIf.kind = .keyword .kwIf) (kind' : kwThen.kind = .keyword .kwThen)
    (kind'' : kwElse.kind = .keyword .kwElse) (script : Script .expr .plain c zs)
    (condition : Derives rules .expr .plain (some kwThen.kind) ⟨Build.expr rules a, xs⟩)
    (consequent : Derives rules .expr .plain (some kwElse.kind) ⟨Build.expr rules b, ys⟩)
    (alternative : Derives rules .expr .plain look ⟨Build.expr rules c, zs⟩) :
    Derives rules .primary place look
      ⟨Build.expr rules (.choice ⟨kwIf.start, c.range.stop⟩ a b c),
        ⟨kwIf, Expect.expr⟩ ::
          (xs ++ ⟨kwThen, Expect.expr⟩ :: (ys ++ ⟨kwElse, Expect.expr⟩ :: zs))⟩ := by
  have whole : Derives rules .primary place look _ :=
    .choice kwIf kwThen kwElse kind kind' kind'' condition consequent alternative
  simp only [← script.range_eq] at whole
  exact whole

/-- A call is derived if its arguments are, without a comma behind the last of them. -/
theorem derives_apply {name paren close : Token} {arguments : List Piece} {xs : List Step}
    (kind : name.kind = .name) (kind' : paren.kind = .symbol .parenOpen)
    (kind'' : close.kind = .symbol .parenClose)
    (joined : Joined Expect.expr (arguments.map Piece.steps) xs)
    (each : ∀ x ∈ arguments, ∀ t ∈ separators .parenClose,
      Derives rules .expr .plain (some t) (x.build rules)) :
    Derives rules .primary place look
      ⟨Build.expr rules (.apply ⟨name.start, close.stop⟩ (word name) (arguments.map Piece.expr)),
        ⟨name, place.afterName⟩ :: ⟨paren, Expect.exprOrParen⟩ ::
          (xs ++ [⟨close, Expect.afterOperand⟩])⟩ := by
  have whole : Derives rules .primary place look _ :=
    .apply name paren close (arguments.map (Piece.build rules)) kind kind' kind''
      (List.forall_mem_map.2 each) (by rwa [List.map_map])
  rw [← exprs_build] at whole
  exact whole

/-- A struct is derived if the values of its members are. -/
theorem derives_struct {name brace close : Token} {ms : List MemberPiece} {xs : List Step}
    (kind : name.kind = .name) (kind' : brace.kind = .symbol .braceOpen)
    (kind'' : close.kind = .symbol .braceClose)
    (fits : ∀ m ∈ ms, m.key.Fits ∧ m.colon.kind = .symbol .colon)
    (sep : Separated Expect.members (ms.map MemberPiece.steps) xs)
    (values : ∀ m ∈ ms, ∀ t ∈ separators .braceClose,
      Derives rules .expr .plain (some t) (m.value.build rules)) :
    Derives rules .primary place look
      ⟨Build.expr rules
          (.struct ⟨name.start, close.stop⟩ (word name) (ms.map MemberPiece.member)),
        ⟨name, place.afterName⟩ :: ⟨brace, Expect.members⟩ ::
          (xs ++ [⟨close, Expect.afterOperand⟩])⟩ := by
  have whole : Derives rules .primary place look _ :=
    .struct name brace close (ms.map (MemberPiece.map (Build.expr rules))) kind kind' kind''
      (List.forall_mem_map.2 fits) (List.forall_mem_map.2 values) (by rwa [List.map_map])
  rw [← members_build] at whole
  exact whole

/-! ### Every layer

An expression of a layer is clear for the layers below, so the induction hypothesis applies to what
it consists of. Where a part is closed by a token of its own, `clear_of_settles` takes the place of
that. -/

/-- What is clear behind an expression of a layer is clear behind the one that it consists of. -/
theorem Clear.primary {level : Level} {e : Surface.Expr} (h : Clear level e look) :
    Clear .primary e look :=
  ⟨h.unclaimed, fun other => absurd rfl other, fun isOpen =>
    h.ends (.inr (isOpen.resolve_left (by simp)))⟩

/-- Prefix operators and operators ask for more to be clear than accesses do. -/
theorem Clear.accessed {level : Level} {e : Surface.Expr} (h : Clear level e look)
    (other : level ≠ .primary) : Clear .accessed e look :=
  ⟨h.unclaimed, fun _ => h.quiet other, fun isOpen =>
    h.ends (.inr (isOpen.resolve_left (by simp)))⟩

/-- Where a script is taken as a scanner takes it, either grammar derives it, in front of whatever
does not go on with it. -/
theorem Script.derives {level : Level} {e : Surface.Expr} {xs : List Step}
    (h : Script level place e xs) (found : Found xs) (clear : Clear level e look) :
    Derives rules (layerOf rules.frontEnd level) place look ⟨Build.expr rules e, xs⟩ := by
  -- the induction goes over the layers, with whatever is ahead of each part of the script
  induction h generalizing look with
  | boolean t value kind => exact .boolean t value kind
  | null t kind => exact .null t kind
  | number kind t isNumber =>
    cases frontEnd : rules.frontEnd with
    | tree => exact .number t kind frontEnd isNumber
    | flat =>
      have classified := found.classified _ (List.mem_singleton_self _) kind isNumber
      rw [← classified] at isNumber ⊢
      exact .numberText t frontEnd isNumber
  | name t kind => exact .name t kind clear.unclaimed
  | string q start close parts kind kind' fits scripts ih =>
    have inside := found.tail.left
    refine derives_string kind kind' fits scripts inside fun x hx p hp => ?_
    exact ih x hx p hp ((inside.flatMap x hx).part p hp) (clear_of_settles rfl)
  | array bracket close items kind kind' scripts sep ih =>
    refine derives_array kind kind' sep fun x hx t ht => ?_
    have here := found.tail.left.separated sep _ (List.mem_map_of_mem hx)
    exact ih x hx here (clear_of_settles (separators_settle rfl ht))
  | group paren close kind kind' _ ih =>
    exact .group paren close kind kind' (ih found.tail.left (clear_of_settles (by rw [kind']; rfl)))
  | pair paren comma close kind kind' kind'' _ _ ihl ihr =>
    exact .pair paren comma close kind kind' kind''
      (ihl found.tail.left (clear_of_settles (by rw [kind']; rfl)))
      (ihr found.tail.right.tail.left (clear_of_settles (by rw [kind'']; rfl)))
  | map brace close items kind kind' colons keys values sep ihk ihv =>
    have here : ∀ i ∈ items, Found i.steps := fun i hi =>
      found.tail.left.separated sep _ (List.mem_map_of_mem hi)
    refine derives_map kind kind' colons sep (fun i hi => ?_) fun i hi t ht => ?_
    · exact ihk i hi (here i hi).left (clear_of_settles (by rw [colons i hi]; rfl))
    · exact ihv i hi (here i hi).right.tail (clear_of_settles (separators_settle rfl ht))
  | choice kwIf kwThen kwElse kind kind' kind'' _ _ hc iha ihb ihc =>
    have ends := clear.ends (.inr rfl)
    refine derives_choice kind kind' kind'' hc ?_ ?_ ?_
    · exact iha found.tail.left (clear_of_settles (by rw [kind']; rfl))
    · exact ihb found.tail.right.tail.left (clear_of_settles (by rw [kind'']; rfl))
    · exact ihc found.tail.right.tail.right.tail ⟨clear.unclaimed, fun _ => ends.1, fun _ => ends⟩
  | apply name paren close arguments kind kind' kind'' scripts sep ih =>
    have joined := sep.joined found.tail.tail (by rw [kind'']; decide)
    refine derives_apply kind kind' kind'' joined fun x hx t ht => ?_
    have here := found.tail.tail.left.separated sep _ (List.mem_map_of_mem hx)
    exact ih x hx here (clear_of_settles (separators_settle rfl ht))
  | struct name brace close ms kind kind' kind'' fits values sep ih =>
    refine derives_struct kind kind' kind'' fits sep fun m hm t ht => ?_
    have here : Found m.steps := found.tail.tail.left.separated sep _ (List.mem_map_of_mem hm)
    exact ih m hm here.tail.tail (clear_of_settles (separators_settle rfl ht))
  | @bare place e xs script ih =>
    have subject := ih found clear.primary
    have whole : Derives rules _ place look ⟨Build.expr rules (accessedBy e []), _⟩ :=
      derives_accessed script subject (by simp) (by simp) (clear.quiet (by simp))
    rw [List.flatMap_nil, List.append_nil] at whole
    exact whole
  | accessed suffixes ne closed script fits scripts ih ihs =>
    obtain ⟨a, suffixes, rfl⟩ := List.exists_cons_of_ne_nil ne
    have subject := ih found.left (clear_of_access look suffixes (fits a (by simp)) closed)
    refine derives_accessed script subject fits (fun b hb x hx => ?_) (clear.quiet (by simp))
    exact ihs b hb x hx ((found.right.flatMap b hb).suffix x hx) (clear_of_settles rfl)
  | unsigned _ ih =>
    exact derives_unsigned (ih found (clear.accessed (by simp))) (clear.quiet (by simp))
  | signed signs ne ops script ih =>
    obtain ⟨x, signs, rfl⟩ := List.exists_cons_of_ne_nil ne
    have operand := ih found.right ⟨clear.unclaimed, fun _ => clear.quiet (by simp), fun isOpen =>
      clear.ends (.inr (isOpen.resolve_left (by simp)))⟩
    exact derives_signed ne script operand ops (clear.quiet (by simp))
  | @single place e xs script ih =>
    have ends := clear.ends (.inl rfl)
    have operands : Operands rules place look ⟨e, xs⟩ [] :=
      operands_of_chain script (by simp) (by simp) (by simp) (fun look clear => ih found clear)
        (by simp) clear.unclaimed ends
    have whole := operands.chain ends
    rw [List.flatMap_nil, List.append_nil] at whole
    exact whole
  | @chain place e xs links ne script ops scripts closed ih ihs =>
    have ends := clear.ends (.inl rfl)
    have operands : Operands rules place look ⟨e, xs⟩ links :=
      operands_of_chain script ops scripts closed (fun look clear => ih found.left clear)
        (fun l hl look clear => ihs l hl (found.right.flatMap l hl).tail clear) clear.unclaimed ends
    obtain ⟨l, links, rfl⟩ := List.exists_cons_of_ne_nil ne
    exact operands.chain ends

end Complete

end Wdl.Parser
