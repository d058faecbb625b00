import Wdl.Proofs.Derivable
import Wdl.Proofs.Excerpts

/-!
# Wdl.Proofs.Expected -- what a grammar derives is looked for

A scanner looks for the terminals of a set, which the token before decides (`Wdl.Token.Expect`), and
the two front ends share these sets. Nothing in a derivation makes its tokens members of them: the
steps of a production carry the sets, but which token is behind which follows from the productions
alone. Here it is shown that the sets leave nothing out, for either grammar.

* `AwaitedBehind place t`: a terminal is looked for behind every token that an expression ends with.
  `operator_looked` and `accessor_looked` say so of operators and accesses.
* `EndsExpr.awaited`, `Script.awaited` and `Derives.between` put expressions between other tokens.
* `Separated.awaited`, `Joined.awaited`, `Hole.awaited` and `parts_awaited` do the same for lists,
  placeholders, and the parts of strings.
* `Derives.awaited` is the result, by induction over derivations.
-/

namespace Wdl.Parser

variable {α : Type} {rules : Rules} {place : Place} {look : Option Terminal}

/-! ## Neighbours

`Place.ends` are the sets that may stand behind the last token of an expression at a place, by what
that token is. So `AwaitedBehind` asks for membership in each of them; for a fixed terminal it is
decidable. -/

/-- What starts an expression is looked for where one is looked for. -/
theorem looked_startsExpr {t : Terminal} (h : startsExpr t = true) : looked t ∈ Expect.expr := by
  cases t with
  | number kind => exact startsExpr_mem (t := .number .decimal) rfl
  | _ => exact startsExpr_mem h

/-- Behind an expression at any place operators and accesses are looked for. -/
theorem operator_looked {t : Terminal} {op : BinaryOp} (h : binaryOp? t = some op) :
    ∀ A ∈ place.ends, looked t ∈ A := by
  have each : ∀ k : Symbol, (BinaryOp.ofSymbol? k).isSome = true →
      ∀ A ∈ endings, .symbol k ∈ A := by
    intro k
    cases k <;> decide
  intro A mem
  cases t with
  | symbol k =>
    have isOp : BinaryOp.ofSymbol? k = some op := h
    exact each k (by rw [isOp]; rfl) A (place.ends_subset mem)
  | _ => cases h

/-- A dot or an opening bracket is looked for behind every expression as well. -/
theorem accessor_looked {t : Terminal} (h : startsAccessor t = true) :
    ∀ A ∈ place.ends, looked t ∈ A := by
  have each : ∀ A ∈ endings, .symbol .dot ∈ A ∧ .symbol .bracketOpen ∈ A := by decide
  intro A mem
  have here := each A (place.ends_subset mem)
  cases t with
  | symbol k =>
    cases k with
    | dot => exact here.1
    | bracketOpen => exact here.2
    | _ => cases h
  | _ => cases h

/-- A terminal is looked for behind an expression, whatever its last token. -/
def AwaitedBehind (place : Place) (t : Terminal) : Prop := ∀ A ∈ place.ends, looked t ∈ A

instance (place : Place) (t : Terminal) : Decidable (AwaitedBehind place t) :=
  inferInstanceAs (Decidable (∀ A ∈ place.ends, looked t ∈ A))

/-- What is looked for behind an expression may come behind its steps. -/
theorem EndsExpr.awaited {xs ys : List Step} {y : Step} (ends : EndsExpr place xs)
    (own : Awaited xs) (next : AwaitedBehind place y.token.kind) (rest : Awaited (y :: ys)) :
    Awaited (xs ++ y :: ys) := by
  obtain ⟨x, last, mem, -⟩ := ends
  refine own.append rest ?_
  intro z hz w hw
  rw [last] at hz
  cases hz
  cases hw
  exact next x.after mem

/-- An expression may come where one is looked for. -/
theorem Script.awaited {level : Level} {e : Surface.Expr} {xs ys : List Step} {x : Step}
    (script : Script level place e xs) (own : Awaited (xs ++ ys)) (opens : Expect.expr ⊆ x.after) :
    Awaited (x :: (xs ++ ys)) := by
  obtain ⟨y, head, starts, -⟩ := script.startsExpr
  obtain ⟨zs, rfl⟩ := List.head?_eq_some_iff.1 head
  exact List.isChain_cons_cons.2 ⟨opens (looked_startsExpr starts), own⟩

/-! ## Lists

A separator may stand behind any item, and behind it another item or, in lists that allow it, the
closing token. The lemmas take the opening and closing tokens along, because that an empty list may
be closed is a matter of what is looked for behind the opening one. -/

/-- An item of a list: it may come where one is looked for, and ends like an expression. -/
structure AwaitedItem (after : Expect) (item : List Step) : Prop where
  own : Awaited item
  head : ∀ y ∈ item.head?, looked y.token.kind ∈ after
  ends : EndsExpr .plain item

/-- An item goes behind a token that looks for it. -/
theorem AwaitedItem.behind {after : Expect} {item ys : List Step} {x : Step}
    (h : AwaitedItem after item) (rest : Awaited (item ++ ys)) (opens : after ⊆ x.after) :
    Awaited (x :: (item ++ ys)) := by
  obtain ⟨y, more, rfl⟩ := List.exists_cons_of_ne_nil h.ends.ne_nil
  exact List.isChain_cons_cons.2 ⟨opens (h.head y rfl), rest⟩

/-- A comma is looked for behind every expression. -/
theorem comma_awaited {comma : Token} (kind : comma.kind = .symbol .comma) :
    AwaitedBehind .plain comma.kind := by
  rw [kind]
  decide

section Lists

variable {after : Expect} {items : List (List Step)} {xs : List Step} {opening closing : Step}

/-- An item, and what is behind it up to the closing token. -/
theorem More.awaited {item : List Step} (more : More after items xs)
    (first : AwaitedItem after item) (each : ∀ item ∈ items, AwaitedItem after item)
    (closes : looked closing.token.kind ∈ after)
    (behind : AwaitedBehind .plain closing.token.kind) :
    Awaited (item ++ (xs ++ [closing])) := by
  induction more generalizing item with
  | nil => exact first.ends.awaited first.own behind (.singleton closing)
  | trailing comma kind =>
    exact first.ends.awaited first.own (comma_awaited kind)
      (List.isChain_cons_cons.2 ⟨closes, .singleton closing⟩)
  | @cons next items ys comma kind more ih =>
    have here := each next (by simp)
    have rest := ih here fun item hitem => each item (by simp [hitem])
    rw [List.cons_append, List.append_assoc]
    exact first.ends.awaited first.own (comma_awaited kind) (here.behind rest (fun _ h => h))

/-- Items between separators, and the brackets around them. -/
theorem Separated.awaited (sep : Separated after items xs)
    (each : ∀ item ∈ items, AwaitedItem after item) (opens : opening.after = after)
    (closes : looked closing.token.kind ∈ after)
    (behind : AwaitedBehind .plain closing.token.kind) :
    Awaited (opening :: (xs ++ [closing])) := by
  cases sep with
  | nil => exact List.isChain_cons_cons.2 ⟨opens ▸ closes, .singleton closing⟩
  | @cons item items ys more =>
    have first := each item (by simp)
    have rest := more.awaited first (fun item hitem => each item (by simp [hitem])) closes behind
    rw [List.append_assoc]
    exact first.behind rest (by rw [opens]; exact fun _ h => h)

/-- Items with commas between them, and the brackets around them. -/
theorem Joined.awaited (joined : Joined after items xs)
    (each : ∀ item ∈ items, AwaitedItem after item) (opens : after ⊆ opening.after)
    (empty : items = [] → looked closing.token.kind ∈ opening.after)
    (behind : AwaitedBehind .plain closing.token.kind) :
    Awaited (opening :: (xs ++ [closing])) := by
  induction joined generalizing opening with
  | nil => exact List.isChain_cons_cons.2 ⟨empty rfl, .singleton closing⟩
  | single item =>
    have first := each item (by simp)
    exact first.behind (first.ends.awaited first.own behind (.singleton closing)) opens
  | @cons item next items ys comma kind joined ih =>
    have first := each item (by simp)
    have rest : Awaited (⟨comma, after⟩ :: (ys ++ [closing])) :=
      ih (fun item hitem => each item (by simp [hitem])) (fun _ h => h) (by simp)
    rw [List.append_assoc]
    exact first.behind (first.ends.awaited first.own (comma_awaited kind) rest) opens

end Lists

/-! ## Placeholders, strings and commands

Two sets serve a template: one behind literal text and one behind everything else,
`Template.afterText` and `Template.inside`. The first leaves literal text out, which is why the
parts must stand apart. -/

/-- An option goes where an expression may, and what is behind its value may again be an option or
the expression. -/
theorem OptionPiece.awaited {o : OptionPiece} {xs : List Step} {x : Step} (fits : o.Fits)
    (opens : Expect.expr ⊆ x.after)
    (rest : ∀ y : Step, Expect.expr ⊆ y.after → Awaited (y :: xs)) :
    Awaited (x :: (o.steps ++ xs)) := by
  obtain ⟨⟨token, after⟩, equal, value⟩ := o
  obtain ⟨name, isEqual, isValue⟩ := fits
  simp only at name isEqual isValue
  -- the name of an option is a name or one of two keywords
  have word : looked token.kind ∈ Expect.expr ∧ .symbol .equal ∈ after := by
    unfold optionName? at name
    split at name <;> cases name <;> rename_i kind <;> rw [kind] <;> decide
  -- its value is a quoted text or a number
  have worth : looked value.step.token.kind ∈ Expect.optionValue ∧
      Expect.expr ⊆ value.step.after := by
    cases value with
    | quoted q t =>
      have kind : t.kind = .quoted q := isValue
      refine ⟨?_, (by decide : Expect.expr ⊆ Expect.afterQuoted)⟩
      show looked t.kind ∈ _
      rw [kind]
      cases q <;> decide
    | number k t =>
      have kind : t.kind = .number k := isValue
      refine ⟨?_, (by decide : Expect.expr ⊆ Expect.afterNumber)⟩
      show looked t.kind ∈ _
      rw [kind]
      exact (by decide : .number .decimal ∈ Expect.optionValue)
  have behind := rest value.step worth.2
  refine List.isChain_cons_cons.2 ⟨opens word.1, List.isChain_cons_cons.2 ⟨?_,
    List.isChain_cons_cons.2 ⟨worth.1, behind⟩⟩⟩
  rw [isEqual]
  exact word.2

/-- The options and the expression of a placeholder may come behind what opens it. -/
theorem Hole.awaited {h : Hole α} {level : Level} {e : Surface.Expr} {ys : List Step} {x : Step}
    (script : Script level .placeholder e h.body.steps) (own : Awaited (h.body.steps ++ ys))
    (fits : ∀ o ∈ h.options, o.Fits) (opens : Expect.expr ⊆ x.after) :
    Awaited (x :: (h.steps ++ ys)) := by
  obtain ⟨options, body⟩ := h
  simp only [Hole.steps] at own script fits ⊢
  induction options generalizing x with
  | nil => exact script.awaited own opens
  | cons o options ih =>
    rw [List.flatMap_cons, List.append_assoc, List.append_assoc]
    refine OptionPiece.awaited (fits o (by simp)) opens fun y opens' => ?_
    rw [← List.append_assoc]
    exact ih opens' fun o ho => fits o (by simp [ho])

/-- What is looked for in a template whether or not literal text is in front is looked for. -/
theorem Template.looked_behind (template : Template) {k : Terminal} {after : Expect} {P : Prop}
    (both : k ∈ template.inside ∧ k ∈ template.afterText)
    (front : after = template.inside ∨ after = template.afterText ∧ P) : k ∈ after := by
  rcases front with rfl | ⟨rfl, -⟩
  · exact both.1
  · exact both.2

/-- The parts of a string or command may come between its delimiters, as long as no literal text is
behind literal text. -/
theorem parts_awaited {template : Template} {parts : List (PartPiece (Checked Expr))}
    {opening closing : Step} (fits : ∀ x ∈ parts, x.Fits template)
    (apart : parts.IsChain fun x y => x.isText = false ∨ y.isText = false)
    (inner : ∀ x ∈ parts, ∀ p ∈ x.inner, Awaited p.steps ∧
      ∃ level e, Script level .placeholder e p.steps)
    (text : looked template.text ∈ template.inside)
    (opener : looked template.opener ∈ template.inside ∧
      looked template.opener ∈ template.afterText)
    (closes : looked closing.token.kind ∈ template.inside ∧
      looked closing.token.kind ∈ template.afterText)
    (opens : opening.after = template.inside ∨
      opening.after = template.afterText ∧ ∀ x ∈ parts.head?, x.isText = false) :
    Awaited (opening :: (parts.flatMap (PartPiece.steps template) ++ [closing])) := by
  -- the step in front is the opening mark, literal text, or the end of a placeholder
  induction parts generalizing opening with
  | nil => exact List.isChain_cons_cons.2 ⟨template.looked_behind closes opens, .singleton closing⟩
  | cons x parts ih =>
    have more : ∀ front : Step, _ := fun front =>
      @ih front (fun y hy => fits y (by simp [hy])) apart.tail
        (fun y hy => inner y (by simp [hy]))
    rw [List.flatMap_cons, List.append_assoc]
    cases x with
    | text t =>
      have kind : t.kind = template.text := fits (.text t) (by simp)
      refine List.isChain_cons_cons.2 ⟨?_, more ⟨t, template.afterText⟩
        (.inr ⟨rfl, fun y hy => ?_⟩)⟩
      · rcases opens with opens | ⟨-, other⟩
        · rw [opens, kind]
          exact text
        · cases other (.text t) rfl
      · obtain ⟨others, rfl⟩ := List.head?_eq_some_iff.1 hy
        exact (List.isChain_cons_cons.1 apart).1.resolve_left (by simp [PartPiece.isText])
    | hole start close h =>
      obtain ⟨kind, kind', options⟩ := fits (.hole start close h) (by simp)
      obtain ⟨own, level, e, script⟩ := inner (.hole start close h) (by simp) h.body
        (by simp [PartPiece.inner])
      have rest := more ⟨close, template.inside⟩ (.inl rfl)
      have body := script.endsExpr.awaited own (by rw [kind']; decide) rest
      have whole : Awaited (⟨start, Expect.expr⟩ :: (h.steps ++ _)) :=
        Hole.awaited script body options fun _ h => h
      have steps : PartPiece.steps template (.hole start close h) ++
          (parts.flatMap (PartPiece.steps template) ++ [closing]) =
          ⟨start, Expect.expr⟩ :: (h.steps ++ ⟨close, template.inside⟩ ::
            (parts.flatMap (PartPiece.steps template) ++ [closing])) := by
        simp [PartPiece.steps]
      rw [steps]
      refine List.isChain_cons_cons.2 ⟨?_, whole⟩
      rw [kind]
      exact template.looked_behind opener opens

/-! ## Derivations

An expression that is derived is written like one of some layer (`Derives.script`), and so starts
and ends like an expression. These lemmas put it between other tokens, for the induction. -/

section Derivations

variable {p : Phrase}

/-- An item of a list that is an expression. -/
theorem Derives.item {after : Expect} (h : Derives rules .expr .plain look p)
    (own : Awaited p.steps) (opens : Expect.expr ⊆ after) : AwaitedItem after p.steps := by
  obtain ⟨level, e, script⟩ := h.script
  refine ⟨own, fun y hy => ?_, script.endsExpr⟩
  obtain ⟨x, head, starts, -⟩ := script.startsExpr
  rw [head] at hy
  cases hy
  exact opens (looked_startsExpr starts)

/-- An expression with a token in front of it and tokens behind it. -/
theorem Derives.between {nonterminal : Nonterminal} (h : Derives rules nonterminal place look p)
    (own : Awaited p.steps) {x y : Step} {ys : List Step} (opens : Expect.expr ⊆ x.after)
    (behind : AwaitedBehind place y.token.kind) (rest : Awaited (y :: ys)) :
    Awaited (x :: (p.steps ++ y :: ys)) := by
  obtain ⟨level, e, script⟩ := h.script
  exact script.awaited (script.endsExpr.awaited own behind rest) opens

/-- An expression with a token in front of it. -/
theorem Derives.behind {nonterminal : Nonterminal} (h : Derives rules nonterminal place look p)
    (own : Awaited p.steps) {x : Step} (opens : Expect.expr ⊆ x.after) :
    Awaited (x :: p.steps) := by
  obtain ⟨level, e, script⟩ := h.script
  have whole : Awaited (p.steps ++ []) := by rwa [List.append_nil]
  have := script.awaited whole opens
  rwa [List.append_nil] at this

/-- Tokens behind an expression. -/
theorem Derives.before {nonterminal : Nonterminal} (h : Derives rules nonterminal place look p)
    (own : Awaited p.steps) {y : Step} {ys : List Step}
    (behind : AwaitedBehind place y.token.kind) (rest : Awaited (y :: ys)) :
    Awaited (p.steps ++ y :: ys) := by
  obtain ⟨level, e, script⟩ := h.script
  exact script.endsExpr.awaited own behind rest

/-- A member of a struct goes where members are looked for. -/
theorem MemberPiece.item {m : MemberPiece (Checked Expr)}
    (fits : m.key.Fits ∧ m.colon.kind = .symbol .colon)
    (h : Derives rules .expr .plain look m.value) (own : Awaited m.value.steps) :
    AwaitedItem Expect.members m.steps := by
  obtain ⟨key, colon, value⟩ := m
  obtain ⟨isKey, isColon⟩ := fits
  simp only at isKey isColon h own
  have behind : Awaited (⟨colon, Expect.expr⟩ :: value.steps) := h.behind own fun _ h => h
  obtain ⟨level, e, script⟩ := h.script
  have word : looked key.step.token.kind ∈ Expect.members ∧ .symbol .colon ∈ key.step.after := by
    cases key with
    | word t =>
      have kind : t.kind = .name := isKey
      show looked t.kind ∈ Expect.members ∧ .symbol .colon ∈ Expect.aColon
      rw [kind]
      decide
    | quoted q t =>
      have kind : t.kind = .quoted q := isKey
      show looked t.kind ∈ Expect.members ∧ .symbol .colon ∈ Expect.afterQuoted
      rw [kind]
      cases q <;> decide
  refine ⟨List.isChain_cons_cons.2 ⟨?_, behind⟩, ?_, script.endsExpr.cons.cons⟩
  · rw [isColon]
    exact word.2
  · rintro y ⟨⟩
    exact word.1

/-- What is behind an operand in a sequence is looked for. -/
theorem links_awaited {first : Phrase} {links : List (Link (Checked Expr))}
    (script : ∃ level e, Script level place e first.steps) (own : Awaited first.steps)
    (ops : ∀ l ∈ links, binaryOp? l.sign.kind = some l.op)
    (each : ∀ l ∈ links, Awaited l.operand.steps ∧
      ∃ level e, Script level .plain e l.operand.steps) :
    Awaited (first.steps ++ links.flatMap Link.steps) := by
  induction links generalizing first place with
  | nil => simpa using own
  | cons l links ih =>
    obtain ⟨own', script'⟩ := each l (by simp)
    have rest := ih script' own' (fun m hm => ops m (by simp [hm]))
      fun m hm => each m (by simp [hm])
    obtain ⟨level, e, script⟩ := script
    obtain ⟨level', e', script'⟩ := script'
    rw [List.flatMap_cons, Link.steps, List.cons_append]
    exact script.endsExpr.awaited own (operator_looked (ops l (by simp)))
      (script'.awaited rest fun _ h => h)

/-- An access behind an expression. -/
theorem Suffix.awaited {a : Suffix (Checked Expr)} (fits : a.Fits)
    (inner : ∀ x ∈ a.inner, Awaited x.steps ∧ ∃ level e, Script level .plain e x.steps) :
    Awaited a.steps := by
  cases a with
  | member dot name =>
    refine List.isChain_cons_cons.2 ⟨?_, .singleton _⟩
    rw [fits.2]
    exact (by decide : .name ∈ Expect.aName)
  | index bracket close x =>
    obtain ⟨own, level, e, script⟩ := inner x (by simp [Suffix.inner])
    have closes : AwaitedBehind .plain close.kind := by
      rw [fits.2]
      decide
    exact script.awaited (script.endsExpr.awaited own closes (.singleton _)) fun _ h => h

/-- Accesses behind an operand, the first behind the operand and each of the others behind an
access. -/
theorem suffixes_awaited {xs : List Step} {suffixes : List (Suffix (Checked Expr))}
    (ends : EndsExpr place xs) (own : Awaited xs) (fits : ∀ a ∈ suffixes, a.Fits)
    (each : ∀ a ∈ suffixes, Awaited a.steps) :
    Awaited (xs ++ suffixes.flatMap Suffix.steps) := by
  induction suffixes using List.reverseRecOn with
  | nil => simpa using own
  | append_singleton suffixes a ih =>
    have rest := ih (fun b hb => fits b (by simp [hb])) fun b hb => each b (by simp [hb])
    have ends' : EndsExpr place (xs ++ suffixes.flatMap Suffix.steps) := by
      cases suffixes with
      | nil => simpa using ends
      | cons b suffixes =>
        exact (EndsExpr.flatMap (by simp) fun c hc =>
          Suffix.endsExpr (fits c (List.mem_append_left _ hc)) place).append
    obtain ⟨y, head, starts⟩ := Suffix.head (fits a (by simp))
    obtain ⟨ys, steps⟩ := List.head?_eq_some_iff.1 head
    have own' := each a (by simp)
    rw [steps] at own'
    rw [List.flatMap_append, List.flatMap_singleton, ← List.append_assoc, steps]
    exact ends'.awaited rest (accessor_looked starts) own'

/-- Prefix operators in front of an operand with its accesses. -/
theorem signs_awaited {signs : List Sign} (ne : signs ≠ [])
    (ops : ∀ x ∈ signs, unaryOp? x.token.kind = some x.op)
    (h : Derives rules .access .plain look p) (own : Awaited p.steps) :
    Awaited (signs.map Sign.step ++ p.steps) := by
  obtain ⟨x, signs, rfl⟩ := List.exists_cons_of_ne_nil ne
  induction signs generalizing x with
  | nil => exact h.behind own fun _ h => h
  | cons y signs ih =>
    have rest := ih y (by simp) fun z hz => ops z (List.mem_cons_of_mem x hz)
    refine List.isChain_cons_cons.2 ⟨?_, rest⟩
    have starts : startsExpr y.token.kind = true := by
      rw [startsExpr, ops y (by simp)]
      rfl
    exact looked_startsExpr starts

/-- Behind a name what opens arguments or members is looked for. -/
theorem opened_awaited (place : Place) :
    .symbol .parenOpen ∈ place.afterName ∧ .symbol .braceOpen ∈ place.afterName := by
  cases place <;> decide

theorem comma_separates (close : Symbol) : .symbol .comma ∈ separators close := List.mem_cons_self

/-- Whatever either grammar derives, each of its tokens is looked for behind the one before: the
contexts of the scanner leave nothing of the grammars out. -/
theorem Derives.awaited {nonterminal : Nonterminal} (h : Derives rules nonterminal place look p) :
    Awaited p.steps := by
  induction h with
  -- the grammar with a nonterminal for each level: one operator, prefix operator or access at a
  -- time
  | tree _ _ _ ih => exact ih
  | pass _ _ _ ih => exact ih
  | binary sign _ isOp left right _ ihl ihr =>
    exact left.before ihl (operator_looked isOp) (right.behind ihr fun _ h => h)
  | sign x _ operand ih => exact operand.behind ih fun _ h => h
  | unsigned _ _ ih => exact ih
  | operand _ ih => exact ih
  | suffix a subject fits inner ih ihs =>
    obtain ⟨level, e, script⟩ := subject.script
    have one : Awaited a.steps := Suffix.awaited fits fun x hx => ⟨ihs x hx, (inner x hx).script⟩
    have whole : Awaited (_ ++ [a].flatMap Suffix.steps) :=
      suffixes_awaited script.endsExpr ih (by simpa using fits) (by simpa using one)
    rwa [List.flatMap_singleton] at whole
  -- the grammar that takes runs of them
  | flat _ _ ih => exact ih
  | sequence links first ops each _ ih ihs =>
    refine links_awaited first.script ih ops fun l hl => ?_
    obtain ⟨before, after, eq⟩ := List.append_of_mem hl
    exact ⟨ihs before l after eq, (each before l after eq).script⟩
  | bare _ ih => exact ih
  | signs signs ne ops operand ih => exact signs_awaited ne ops operand ih
  | access suffixes subject fits inner _ ih ihs =>
    obtain ⟨level, e, script⟩ := subject.script
    exact suffixes_awaited script.endsExpr ih fits fun a ha =>
      Suffix.awaited (fits a ha) fun x hx => ⟨ihs a ha x hx, (inner a ha x hx).script⟩
  -- operands that are one token
  | boolean => exact .singleton _
  | null => exact .singleton _
  | number => exact .singleton _
  | numberText => exact .singleton _
  | name => exact .singleton _
  -- operands between delimiters
  | string q start close parts _ kind' fits apart inner ih =>
    refine parts_awaited fits apart (fun x hx p hp => ⟨ih x hx p hp, (inner x hx p hp).script⟩)
      ?_ ?_ ?_ (.inl rfl)
    · cases q <;> decide
    · cases q <;> decide
    · rw [kind']
      cases q <;> decide
  | array bracket close items _ kind' inner sep ih =>
    refine sep.awaited (List.forall_mem_map.2 fun x hx => ?_) rfl ?_ ?_
    · exact (inner x hx _ (comma_separates _)).item (ih x hx _ (comma_separates _)) (by decide)
    · rw [kind']
      exact (by decide : Terminal.symbol .bracketClose ∈ Expect.exprOrBracket)
    · rw [kind']
      decide
  | group paren close _ kind' inner ih =>
    exact inner.between ih (fun _ h => h) (by rw [kind']; decide) (.singleton _)
  | pair paren comma close _ kind' kind'' left right ihl ihr =>
    refine left.between ihl (fun _ h => h) (by rw [kind']; decide) ?_
    exact right.between ihr (fun _ h => h) (by rw [kind'']; decide) (.singleton _)
  | map brace close items _ kind' colons keys values sep ihk ihv =>
    refine sep.awaited (List.forall_mem_map.2 fun i hi => ?_) rfl ?_ ?_
    · have value := values i hi _ (comma_separates _)
      have behind : Awaited (⟨i.colon, Expect.expr⟩ :: i.value.steps) :=
        value.behind (ihv i hi _ (comma_separates _)) fun _ h => h
      have key := (keys i hi).item (ihk i hi) (show Expect.expr ⊆ Expect.exprOrBrace by decide)
      obtain ⟨level, e, script⟩ := value.script
      refine ⟨(keys i hi).before (ihk i hi) (by rw [colons i hi]; decide) behind, ?_,
        script.endsExpr.cons.append⟩
      obtain ⟨x, more, steps⟩ := List.exists_cons_of_ne_nil key.ends.ne_nil
      intro y hy
      rw [ItemPiece.steps, steps] at hy
      cases hy
      exact key.head x (by rw [steps]; rfl)
    · rw [kind']
      exact (by decide : Terminal.symbol .braceClose ∈ Expect.exprOrBrace)
    · rw [kind']
      decide
  -- no delimiter is behind a choice, so its alternative ends it
  | choice kwIf kwThen kwElse _ kind' kind'' a b c iha ihb ihc =>
    refine a.between iha (fun _ h => h) (by rw [kind']; decide) ?_
    refine b.between ihb (fun _ h => h) (by rw [kind'']; decide) ?_
    exact c.behind ihc fun _ h => h
  | @apply place look name paren close arguments xs _ kind' kind'' inner joined ih =>
    refine List.isChain_cons_cons.2 ⟨?_, joined.awaited (List.forall_mem_map.2 fun x hx => ?_)
      ?_ (fun _ => ?_) ?_⟩
    · rw [kind']
      exact (opened_awaited place).1
    · exact (inner x hx _ (comma_separates _)).item (ih x hx _ (comma_separates _)) fun _ h => h
    · exact (by decide : Expect.expr ⊆ Expect.exprOrParen)
    · rw [kind'']
      exact (by decide : Terminal.symbol .parenClose ∈ Expect.exprOrParen)
    · rw [kind'']
      decide
  | @struct place look name brace close ms xs _ kind' kind'' fits inner sep ih =>
    refine List.isChain_cons_cons.2 ⟨?_, sep.awaited (List.forall_mem_map.2 fun m hm => ?_)
      rfl ?_ ?_⟩
    · rw [kind']
      exact (opened_awaited place).2
    · exact MemberPiece.item (fits m hm) (inner m hm _ (comma_separates _))
        (ih m hm _ (comma_separates _))
    · rw [kind'']
      exact (by decide : Terminal.symbol .braceClose ∈ Expect.members)
    · rw [kind'']
      decide

end Derivations

end Wdl.Parser
