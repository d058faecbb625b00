import Wdl.Proofs.Relocation
import Wdl.Proofs.Script

/-!
# Wdl.Proofs.Transposition -- the same script at another place

The tokens of a script may be moved as long as each keeps its length: the moved tokens write the
moved surface form. A script that starts a placeholder may be taken out of it: only what is looked
for behind its first token changes.

* `Token.move`, `Step.move` and a `move` for each type of pieces apply a function on positions.
  `Step.Keeps` says that the function keeps the length of the token of a step.
* `Script.move` is the first result. The production of a script stays what it is; for each list of
  pieces in it a lemma says that its steps, what it writes and its conditions move with it.
* `Script.unnamedHead` is the second. `unnamed` turns what is looked for behind the first name of a
  placeholder, where an option may still begin, into what is looked for behind any other name.

Nothing is said here about texts: how the tokens at the other place are found there is the matter of
`Wdl.Proofs.Legible`.
-/

namespace Wdl

/-- The token at another place. -/
def Token.move (f : Nat → Nat) (t : Token) : Token := { t with start := f t.start }

@[simp] theorem Token.kind_move (f : Nat → Nat) (t : Token) : (t.move f).kind = t.kind := rfl

namespace Parser

open Surface

/-- The step at another place. -/
def Step.move (f : Nat → Nat) (x : Step) : Step := ⟨x.token.move f, x.after⟩

/-- Moving keeps the length of the token. -/
def Step.Keeps (f : Nat → Nat) (x : Step) : Prop :=
  f x.token.stop = f x.token.start + x.token.chars.length

variable {f : Nat → Nat}

theorem Step.Keeps.range_move {x : Step} (h : x.Keeps f) :
    (x.token.move f).range = x.token.range.move f := by
  exact congrArg (Range.mk _) h.symm

theorem Step.Keeps.stop_move {x : Step} (h : x.Keeps f) : (x.token.move f).stop = f x.token.stop :=
  congrArg Range.stop h.range_move

theorem Step.Keeps.word_move {x : Step} (h : x.Keeps f) :
    word (x.token.move f) = (word x.token).move f := by
  rw [word, h.range_move]
  rfl

theorem Step.Keeps.quoted_move {x : Step} (h : x.Keeps f) :
    quoted (x.token.move f) = (quoted x.token).move f := by
  rw [quoted, h.range_move]
  rfl

theorem Step.Keeps.numeral_move {x : Step} (h : x.Keeps f) (kind : NumeralKind) :
    numeral kind (x.token.move f) = (numeral kind x.token).move f := by
  rw [numeral, h.range_move]
  rfl

/-! ## Pieces

Moving a piece moves all its steps, and the surface form of the script in it. -/

/-- The piece at another place. -/
def Piece.move (f : Nat → Nat) (x : Piece) : Piece := ⟨x.expr.move f, x.steps.map (Step.move f)⟩

/-- The link at another place. -/
def Link.move (f : Nat → Nat) (l : Link) : Link := ⟨l.op, l.sign.move f, l.operand.move f⟩

/-- The sign at another place. -/
def Sign.move (f : Nat → Nat) (x : Sign) : Sign := ⟨x.op, x.token.move f⟩

/-- The access at another place. -/
def Suffix.move (f : Nat → Nat) : Suffix → Suffix
  | .member dot name => .member (dot.move f) (name.move f)
  | .index bracket close inner => .index (bracket.move f) (close.move f) (inner.move f)

/-- The key at another place. -/
def KeyToken.move (f : Nat → Nat) : KeyToken → KeyToken
  | .word t => .word (t.move f)
  | .quoted q t => .quoted q (t.move f)

/-- The member at another place. -/
def MemberPiece.move (f : Nat → Nat) (m : MemberPiece) : MemberPiece :=
  ⟨m.key.move f, m.colon.move f, m.value.move f⟩

/-- The map item at another place. -/
def ItemPiece.move (f : Nat → Nat) (i : ItemPiece) : ItemPiece :=
  ⟨i.key.move f, i.colon.move f, i.value.move f⟩

/-- The value of an option at another place. -/
def ValueToken.move (f : Nat → Nat) : ValueToken → ValueToken
  | .quoted q t => .quoted q (t.move f)
  | .number kind t => .number kind (t.move f)

/-- The option at another place. -/
def OptionPiece.move (f : Nat → Nat) (o : OptionPiece) : OptionPiece :=
  ⟨o.name.move f, o.equal.move f, o.value.move f⟩

/-- The placeholder at another place. -/
def Hole.move (f : Nat → Nat) (h : Hole) : Hole :=
  ⟨h.options.map (OptionPiece.move f), h.body.move f⟩

/-- The part at another place. -/
def PartPiece.move (f : Nat → Nat) : PartPiece → PartPiece
  | .text t => .text (t.move f)
  | .hole opener close h => .hole (opener.move f) (close.move f) (h.move f)

theorem Link.steps_move (l : Link) : (l.move f).steps = l.steps.map (Step.move f) := by
  simp [Link.steps, Link.move, Piece.move, Step.move]

theorem Suffix.steps_move (a : Suffix) : (a.move f).steps = a.steps.map (Step.move f) := by
  cases a <;> simp [Suffix.steps, Suffix.move, Piece.move, Step.move]

theorem MemberPiece.steps_move (m : MemberPiece) :
    (m.move f).steps = m.steps.map (Step.move f) := by
  obtain ⟨key, colon, value⟩ := m
  cases key <;> simp [MemberPiece.steps, MemberPiece.move, KeyToken.move, KeyToken.step, Piece.move,
    Step.move]

theorem ItemPiece.steps_move (i : ItemPiece) : (i.move f).steps = i.steps.map (Step.move f) := by
  simp [ItemPiece.steps, ItemPiece.move, Piece.move, Step.move]

theorem OptionPiece.steps_move (o : OptionPiece) :
    (o.move f).steps = o.steps.map (Step.move f) := by
  obtain ⟨name, equal, value⟩ := o
  cases value <;> simp [OptionPiece.steps, OptionPiece.move, ValueToken.move, ValueToken.step,
    Step.move]

theorem Hole.steps_move (h : Hole) : (h.move f).steps = h.steps.map (Step.move f) := by
  have options : (h.options.map (OptionPiece.move f)).flatMap OptionPiece.steps =
      (h.options.flatMap OptionPiece.steps).map (Step.move f) := by
    rw [List.flatMap_map, List.map_flatMap]
    exact List.flatMap_congr fun o _ => o.steps_move
  rw [Hole.steps, Hole.steps, List.map_append, ← options]
  rfl

theorem PartPiece.steps_move (template : Template) (p : PartPiece) :
    (p.move f).steps template = (p.steps template).map (Step.move f) := by
  cases p with
  | text t => rfl
  | hole opener close h =>
    simp [PartPiece.steps, PartPiece.move, Step.move, Hole.steps_move]

/-! ## What the pieces write

The surface form that is read off the tokens of a piece has positions from the starts and the ends
of tokens. So it moves with them if all tokens keep their lengths. -/

/-- The range from one token to another moves if the last keeps its length. -/
theorem Step.Keeps.range_to {x : Step} (h : x.Keeps f) (start : Nat) :
    (⟨f start, (x.token.move f).stop⟩ : Range) = Range.move f ⟨start, x.token.stop⟩ :=
  congrArg (Range.mk _) h.stop_move

theorem Suffix.accessor_move {a : Suffix} (h : ∀ x ∈ a.steps, x.Keeps f) :
    moveAccessors f [a.accessor] = [(a.move f).accessor] := by
  cases a with
  | member dot name =>
    have keeps := h ⟨name, Expect.afterOperand⟩ (by simp [Suffix.steps])
    simp only [Suffix.accessor, Suffix.move, moveAccessors, ← keeps.range_to, ← keeps.word_move]
    rfl
  | index bracket close inner =>
    have keeps := h ⟨close, Expect.afterOperand⟩ (by simp [Suffix.steps])
    simp only [Suffix.accessor, Suffix.move, moveAccessors, ← keeps.range_to]
    rfl

theorem Suffix.accessors_move {as : List Suffix} (h : ∀ x ∈ as.flatMap Suffix.steps, x.Keeps f) :
    moveAccessors f (as.map Suffix.accessor) = (as.map (Suffix.move f)).map Suffix.accessor := by
  induction as with
  | nil => rfl
  | cons a as ih =>
    have split : ∀ b bs, moveAccessors f (b :: bs) = moveAccessors f [b] ++ moveAccessors f bs := by
      intro b bs
      cases b <;> rfl
    rw [List.map_cons, split, Suffix.accessor_move fun x hx => h x (by simp [hx]),
      ih fun x hx => h x (List.mem_flatMap.2 ?_)]
    · rfl
    · obtain ⟨b, hb, hx⟩ := List.mem_flatMap.1 hx
      exact ⟨b, List.mem_cons_of_mem _ hb, hx⟩

theorem MemberPiece.member_move {m : MemberPiece} (h : ∀ x ∈ m.steps, x.Keeps f) :
    (m.member.1.move f, m.member.2.move f) = (m.move f).member := by
  obtain ⟨key, colon, value⟩ := m
  have keeps := h key.step (by simp [MemberPiece.steps])
  cases key with
  | word t =>
    have word' : word (t.move f) = (word t).move f := keeps.word_move
    exact congrArg (fun w => (Key.word w, value.expr.move f)) word'.symm
  | quoted q t =>
    have quoted' : quoted (t.move f) = (quoted t).move f := keeps.quoted_move
    exact congrArg (fun q => (Key.quoted q, value.expr.move f)) quoted'.symm

theorem OptionPiece.option_move {o : OptionPiece} (h : ∀ x ∈ o.steps, x.Keeps f) :
    o.option.move f = (o.move f).option := by
  obtain ⟨name, equal, value⟩ := o
  have keepsName := h name (by simp [OptionPiece.steps])
  have keepsValue := h value.step (by simp [OptionPiece.steps])
  have name' : word (name.token.move f) = (word name.token).move f := keepsName.word_move
  cases value with
  | quoted q t =>
    have value' : quoted (t.move f) = (quoted t).move f := keepsValue.quoted_move
    simp only [OptionPiece.option, OptionPiece.move, PlaceholderOption.move, ValueToken.move,
      ValueToken.value, OptionValue.move, Step.move, name', value']
    rfl
  | number kind t =>
    have value' : numeral kind (t.move f) = (numeral kind t).move f := keepsValue.numeral_move kind
    simp only [OptionPiece.option, OptionPiece.move, PlaceholderOption.move, ValueToken.move,
      ValueToken.value, OptionValue.move, Step.move, name', value']
    rfl

theorem Hole.placeholder_move {h : Hole} (keeps : ∀ x ∈ h.steps, x.Keeps f) :
    h.placeholder.move f = (h.move f).placeholder := by
  obtain ⟨options, body⟩ := h
  have moved : (options.map OptionPiece.option).map (PlaceholderOption.move f) =
      (options.map (OptionPiece.move f)).map OptionPiece.option := by
    rw [List.map_map, List.map_map]
    refine List.map_congr_left fun o ho => OptionPiece.option_move fun x hx => keeps x ?_
    exact List.mem_append_left _ (List.mem_flatMap.2 ⟨o, ho, hx⟩)
  simp only [Hole.placeholder, Hole.move, Surface.Placeholder.move, Piece.move, ← moved,
    Surface.Expr.range_move]
  cases options <;> rfl

theorem PartPiece.parts_move {template : Template} {ps : List PartPiece}
    (h : ∀ x ∈ ps.flatMap (PartPiece.steps template), x.Keeps f) :
    Surface.moveParts f (ps.map PartPiece.part) =
      (ps.map (PartPiece.move f)).map PartPiece.part := by
  induction ps with
  | nil => rfl
  | cons p ps ih =>
    have rest := ih fun x hx => h x (by
      rw [List.flatMap_cons]
      exact List.mem_append_right _ hx)
    have here : ∀ x ∈ p.steps template, x.Keeps f := fun x hx => h x (by
      rw [List.flatMap_cons]
      exact List.mem_append_left _ hx)
    cases p with
    | text t =>
      have keeps := here ⟨t, template.afterText⟩ (by simp [PartPiece.steps])
      have range : (t.move f).range = t.range.move f := keeps.range_move
      simp only [List.map_cons, PartPiece.part, PartPiece.move, Surface.moveParts, rest, range]
      rfl
    | hole opener close hole =>
      have placeholder := Hole.placeholder_move (f := f) (h := hole) fun x hx =>
        here x (by simp [PartPiece.steps, hx])
      simp only [List.map_cons, PartPiece.part, PartPiece.move, Surface.moveParts, rest,
        placeholder]

/-! ## Scripts

The conditions of a production are about the kinds of tokens and about what is looked for behind
them. Neither changes by moving. -/

theorem More.move {after : Expect} {items : List (List Step)} {xs : List Step}
    (h : More after items xs) :
    More after (items.map (List.map (Step.move f))) (xs.map (Step.move f)) := by
  induction h with
  | nil => exact .nil
  | trailing comma kind => exact .trailing (comma.move f) kind
  | cons comma kind _ ih =>
    simp only [List.map_cons, List.map_append]
    exact .cons (comma.move f) kind ih

theorem Separated.move {after : Expect} {items : List (List Step)} {xs : List Step}
    (h : Separated after items xs) :
    Separated after (items.map (List.map (Step.move f))) (xs.map (Step.move f)) := by
  cases h with
  | nil => exact .nil
  | cons more =>
    simp only [List.map_cons, List.map_append]
    exact .cons more.move

/-- The steps of an item of a list are among those of the list. -/
theorem Separated.mem {after : Expect} {items : List (List Step)} {xs ys : List Step}
    (h : Separated after items xs) (hy : ys ∈ items) {x : Step} (hx : x ∈ ys) : x ∈ xs := by
  have more : ∀ {items : List (List Step)} {xs : List Step}, More after items xs →
      ys ∈ items → x ∈ xs := by
    intro items xs h hy
    induction h with
    | nil => cases hy
    | trailing comma kind => cases hy
    | cons comma kind _ ih =>
      rcases List.mem_cons.1 hy with rfl | hy
      · simp [hx]
      · simp [ih hy]
  cases h with
  | nil => cases hy
  | cons rest =>
    rcases List.mem_cons.1 hy with rfl | hy
    · simp [hx]
    · simp [more rest hy]

theorem endsOpen_move : (e : Surface.Expr) → endsOpen (e.move f) = endsOpen e
  | .signed _ e => endsOpen_move e
  | .boolean _ _ | .null _ | .number _ | .string _ _ | .array _ _ | .pair _ _ _ | .group _ _
  | .map _ _ | .choice _ _ _ _ | .apply _ _ _ | .struct _ _ _ | .name _ | .access _ _
  | .chain _ _ => rfl

theorem Piece.steps_map_move (items : List Piece) :
    (items.map Piece.steps).map (List.map (Step.move f)) =
      (items.map (Piece.move f)).map Piece.steps := by
  rw [List.map_map, List.map_map]
  rfl

theorem Piece.exprs_map_move (items : List Piece) :
    (items.map Piece.expr).map (Surface.Expr.move f) =
      (items.map (Piece.move f)).map Piece.expr := by
  rw [List.map_map, List.map_map]
  rfl

theorem Piece.scripts_move {level : Level} {place : Place} {items : List Piece}
    (h : ∀ x ∈ items, Script level place (x.expr.move f) (x.steps.map (Step.move f))) :
    ∀ x ∈ items.map (Piece.move f), Script level place x.expr x.steps := by
  intro x hx
  obtain ⟨y, hy, rfl⟩ := List.mem_map.1 hx
  exact h y hy

theorem ItemPiece.steps_map_move (items : List ItemPiece) :
    (items.map ItemPiece.steps).map (List.map (Step.move f)) =
      (items.map (ItemPiece.move f)).map ItemPiece.steps := by
  rw [List.map_map, List.map_map]
  exact List.map_congr_left fun i _ => i.steps_move.symm

theorem MemberPiece.steps_map_move (ms : List MemberPiece) :
    (ms.map MemberPiece.steps).map (List.map (Step.move f)) =
      (ms.map (MemberPiece.move f)).map MemberPiece.steps := by
  rw [List.map_map, List.map_map]
  exact List.map_congr_left fun m _ => m.steps_move.symm

theorem PartPiece.steps_flatMap_move (template : Template) (ps : List PartPiece) :
    (ps.map (PartPiece.move f)).flatMap (PartPiece.steps template) =
      (ps.flatMap (PartPiece.steps template)).map (Step.move f) := by
  rw [List.flatMap_map, List.map_flatMap]
  exact List.flatMap_congr fun p _ => p.steps_move template

theorem Suffix.steps_flatMap_move (as : List Suffix) :
    (as.map (Suffix.move f)).flatMap Suffix.steps =
      (as.flatMap Suffix.steps).map (Step.move f) := by
  rw [List.flatMap_map, List.map_flatMap]
  exact List.flatMap_congr fun a _ => a.steps_move

theorem Link.steps_flatMap_move (links : List Link) :
    (links.map (Link.move f)).flatMap Link.steps =
      (links.flatMap Link.steps).map (Step.move f) := by
  rw [List.flatMap_map, List.map_flatMap]
  exact List.flatMap_congr fun l _ => l.steps_move

theorem PartPiece.fits_move {template : Template} {ps : List PartPiece}
    (h : ∀ p ∈ ps, p.Fits template) : ∀ p ∈ ps.map (PartPiece.move f), p.Fits template := by
  intro p' hp'
  obtain ⟨p, hp, rfl⟩ := List.mem_map.1 hp'
  have fits := h p hp
  cases p with
  | text t => exact fits
  | hole opener close hole =>
    obtain ⟨opened, closed, options⟩ := fits
    refine ⟨opened, closed, ?_⟩
    intro o' ho'
    obtain ⟨o, ho, rfl⟩ := List.mem_map.1 ho'
    obtain ⟨name, equal, value⟩ := options o ho
    refine ⟨name, equal, ?_⟩
    obtain ⟨_, _, v⟩ := o
    cases v <;> exact value

/-- The steps of what is inside a part are among the steps of the part. -/
theorem PartPiece.steps_inner (template : Template) (p : PartPiece) {x : Piece} (hx : x ∈ p.inner)
    {y : Step} (hy : y ∈ x.steps) : y ∈ p.steps template := by
  cases p with
  | text t => cases hx
  | hole opener close h =>
    obtain rfl := List.mem_singleton.1 hx
    simp [PartPiece.steps, Hole.steps, hy]

theorem PartPiece.inner_move {level : Level} {place : Place} {ps : List PartPiece}
    (h : ∀ p ∈ ps, ∀ x ∈ p.inner, Script level place (x.expr.move f) (x.steps.map (Step.move f))) :
    ∀ p ∈ ps.map (PartPiece.move f), ∀ x ∈ p.inner, Script level place x.expr x.steps := by
  intro p' hp' x hx
  obtain ⟨p, hp, rfl⟩ := List.mem_map.1 hp'
  cases p with
  | text t => cases hx
  | hole opener close hole =>
    obtain rfl := List.mem_singleton.1 hx
    exact h _ hp hole.body (by simp [PartPiece.inner])

theorem MemberPiece.fits_move {ms : List MemberPiece}
    (h : ∀ m ∈ ms, m.key.Fits ∧ m.colon.kind = .symbol .colon) :
    ∀ m ∈ ms.map (MemberPiece.move f), m.key.Fits ∧ m.colon.kind = .symbol .colon := by
  refine List.forall_mem_map.2 fun m hm => ⟨?_, (h m hm).2⟩
  have fits := (h m hm).1
  obtain ⟨k, _, _⟩ := m
  cases k <;> exact fits

theorem MemberPiece.members_move {ms : List MemberPiece}
    (keeps : ∀ m ∈ ms, ∀ y ∈ m.steps, y.Keeps f) :
    (ms.map MemberPiece.member).map (fun x => (x.1.move f, x.2.move f)) =
      (ms.map (MemberPiece.move f)).map MemberPiece.member := by
  rw [List.map_map, List.map_map]
  exact List.map_congr_left fun m hm => MemberPiece.member_move (keeps m hm)

theorem Suffix.fits_move {as : List Suffix} (h : ∀ a ∈ as, a.Fits) :
    ∀ a ∈ as.map (Suffix.move f), a.Fits := by
  refine List.forall_mem_map.2 fun a ha => ?_
  have fits := h a ha
  cases a <;> exact fits

/-- The steps of the expression inside an access are among the steps of the access. -/
theorem Suffix.steps_inner (a : Suffix) {x : Piece} (hx : x ∈ a.inner) {y : Step}
    (hy : y ∈ x.steps) : y ∈ a.steps := by
  cases a with
  | member dot name => cases hx
  | index bracket close i =>
    obtain rfl := List.mem_singleton.1 hx
    simp [Suffix.steps, hy]

theorem Suffix.inner_move {level : Level} {place : Place} {as : List Suffix}
    (h : ∀ a ∈ as, ∀ x ∈ a.inner, Script level place (x.expr.move f) (x.steps.map (Step.move f))) :
    ∀ a ∈ as.map (Suffix.move f), ∀ x ∈ a.inner, Script level place x.expr x.steps := by
  refine List.forall_mem_map.2 fun a ha x hx => ?_
  cases a with
  | member dot name => cases hx
  | index bracket close i =>
    obtain rfl := List.mem_singleton.1 hx
    exact h _ ha i (by simp [Suffix.inner])

theorem Sign.signs_move {signs : List Sign} (keeps : ∀ x ∈ signs, x.step.Keeps f) :
    (signs.map Sign.sign).map (fun x => (x.1, x.2.move f)) =
      (signs.map (Sign.move f)).map Sign.sign := by
  rw [List.map_map, List.map_map]
  exact List.map_congr_left fun x hx => congrArg (x.op, ·) (keeps x hx).range_move.symm

/-- Tokens that are moved and keep their lengths write what they wrote, moved. -/
theorem Script.move {level : Level} {place : Place} {σ : Surface.Expr} {xs : List Step}
    (h : Script level place σ xs) (keeps : ∀ x ∈ xs, x.Keeps f) :
    Script level place (σ.move f) (xs.map (Step.move f)) := by
  -- what is moved is written by the rule that wrote it; its range is that of its moved tokens
  -- because the last of them keeps its length
  induction h with
  | @boolean place t value kind =>
    have range : (t.move f).range = t.range.move f :=
      (keeps _ (List.mem_singleton_self _)).range_move
    simp only [Surface.Expr.move, ← range]
    exact .boolean (t.move f) value kind
  | @null place t kind =>
    have range : (t.move f).range = t.range.move f :=
      (keeps _ (List.mem_singleton_self _)).range_move
    simp only [Surface.Expr.move, ← range]
    exact .null (t.move f) kind
  | @number place k t kind =>
    have numeral' : numeral k (t.move f) = (numeral k t).move f :=
      (keeps _ (List.mem_singleton_self _)).numeral_move k
    simp only [Surface.Expr.move, ← numeral']
    exact .number k (t.move f) kind
  | @name place t kind =>
    have word' : word (t.move f) = (word t).move f :=
      (keeps _ (List.mem_singleton_self _)).word_move
    simp only [Surface.Expr.move, ← word']
    exact .name (t.move f) kind
  | @string place q start close parts opened closed fits _ ih =>
    have range := (keeps ⟨close, Expect.afterOperand⟩ (by simp)).range_to start.start
    have inner : ∀ x ∈ parts.flatMap (PartPiece.steps (.string q)), x.Keeps f :=
      fun x hx => keeps x (List.mem_cons_of_mem _ (List.mem_append_left _ hx))
    have built := @Script.string place q (start.move f) (close.move f)
      (parts.map (PartPiece.move f)) opened closed (PartPiece.fits_move fits)
      (PartPiece.inner_move fun p hp x hx => ih p hp x hx fun y hy =>
        inner y (List.mem_flatMap.2 ⟨p, hp, p.steps_inner (.string q) hx hy⟩))
    rw [← PartPiece.parts_move inner, PartPiece.steps_flatMap_move] at built
    simp only [Surface.Expr.move, ← range, List.map_cons, List.map_append, List.map_nil]
    exact built
  | @array place bracket close items xs opened closed _ separated ih =>
    have range := (keeps ⟨close, Expect.afterOperand⟩ (by simp)).range_to bracket.start
    have built := @Script.array place (bracket.move f) (close.move f)
      (items.map (Piece.move f)) _ opened closed
      (Piece.scripts_move fun x hx => ih x hx fun y hy => keeps y (by
        simp [separated.mem (List.mem_map_of_mem hx) hy]))
      (Piece.steps_map_move items ▸ separated.move)
    simp only [Surface.Expr.move, ← range, List.map_cons, List.map_append, List.map_nil,
      moveExprs_eq, Piece.exprs_map_move]
    exact built
  | @group place paren close e xs opened closed _ ih =>
    have range := (keeps ⟨close, Expect.afterOperand⟩ (by simp)).range_to paren.start
    have inner := ih fun x hx => keeps x (by simp [hx])
    simp only [Surface.Expr.move, ← range, List.map_cons, List.map_append, List.map_nil]
    exact .group (paren.move f) (close.move f) opened closed inner
  | @pair place paren comma close l r xs ys opened between closed _ _ ihl ihr =>
    have range := (keeps ⟨close, Expect.afterOperand⟩ (by simp)).range_to paren.start
    have left := ihl fun x hx => keeps x (by simp [hx])
    have right := ihr fun x hx => keeps x (by simp [hx])
    simp only [Surface.Expr.move, ← range, List.map_cons, List.map_append, List.map_nil]
    exact .pair (paren.move f) (comma.move f) (close.move f) opened between closed left right
  | @map place brace close items xs opened closed colons _ _ separated ihk ihv =>
    have range := (keeps ⟨close, Expect.afterOperand⟩ (by simp)).range_to brace.start
    have each : ∀ i ∈ items, ∀ y ∈ i.steps, y.Keeps f := fun i hi y hy => keeps y (by
      simp [separated.mem (List.mem_map_of_mem hi) hy])
    have built := @Script.map place (brace.move f) (close.move f)
      (items.map (ItemPiece.move f)) _ opened closed
      (List.forall_mem_map.2 colons)
      (List.forall_mem_map.2 fun i hi => ihk i hi fun y hy => each i hi y (by
        simp [ItemPiece.steps, hy]))
      (List.forall_mem_map.2 fun i hi => ihv i hi fun y hy => each i hi y (by
        simp [ItemPiece.steps, hy]))
      (ItemPiece.steps_map_move items ▸ separated.move)
    simp only [Surface.Expr.move, ← range, List.map_cons, List.map_append, List.map_nil,
      movePairs_eq, List.map_map]
    simp only [List.map_map] at built
    exact built
  | @choice place kwIf kwThen kwElse a b c xs ys zs hif hthen helse _ _ _ iha ihb ihc =>
    have condition := iha fun x hx => keeps x (by simp [hx])
    have consequent := ihb fun x hx => keeps x (by simp [hx])
    have alternative := ihc fun x hx => keeps x (by simp [hx])
    have built := @Script.choice place (kwIf.move f) (kwThen.move f) (kwElse.move f)
      _ _ _ _ _ _ hif hthen helse condition consequent alternative
    rw [Surface.Expr.range_move] at built
    simp only [Surface.Expr.move, List.map_cons, List.map_append]
    exact built
  | @apply place name paren close arguments xs named opened closed _ separated ih =>
    have range := (keeps ⟨close, Expect.afterOperand⟩ (by simp)).range_to name.start
    have word' : word (name.move f) = (word name).move f :=
      (keeps ⟨name, place.afterName⟩ (by simp)).word_move
    have built := @Script.apply place (name.move f) (paren.move f) (close.move f)
      (arguments.map (Piece.move f)) _ named opened closed
      (Piece.scripts_move fun x hx => ih x hx fun y hy => keeps y (by
        simp [separated.mem (List.mem_map_of_mem hx) hy]))
      (Piece.steps_map_move arguments ▸ separated.move)
    simp only [Surface.Expr.move, ← range, ← word', List.map_cons, List.map_append, List.map_nil,
      moveExprs_eq, Piece.exprs_map_move]
    exact built
  | @struct place name brace close ms xs named opened closed fits _ separated ih =>
    have range := (keeps ⟨close, Expect.afterOperand⟩ (by simp)).range_to name.start
    have word' : word (name.move f) = (word name).move f :=
      (keeps ⟨name, place.afterName⟩ (by simp)).word_move
    have each : ∀ m ∈ ms, ∀ y ∈ m.steps, y.Keeps f := fun m hm y hy => keeps y (by
      simp [separated.mem (List.mem_map_of_mem hm) hy])
    have built := @Script.struct place (name.move f) (brace.move f) (close.move f)
      (ms.map (MemberPiece.move f)) _ named opened closed (MemberPiece.fits_move fits)
      (List.forall_mem_map.2 fun m hm => ih m hm fun y hy => each m hm y (by
        simp [MemberPiece.steps, hy]))
      (MemberPiece.steps_map_move ms ▸ separated.move)
    simp only [Surface.Expr.move, ← range, ← word', List.map_cons, List.map_append, List.map_nil,
      moveMembers_eq, MemberPiece.members_move each]
    exact built
  | bare _ ih => exact .bare (ih keeps)
  | @accessed place e xs suffixes ne closed _ fits _ ih ihs =>
    have inner : ∀ x ∈ suffixes.flatMap Suffix.steps, x.Keeps f :=
      fun x hx => keeps x (List.mem_append_right _ hx)
    have built := Script.accessed (suffixes.map (Suffix.move f)) (by simpa using ne)
      ((endsOpen_move e).trans closed) (ih fun x hx => keeps x (List.mem_append_left _ hx))
      (Suffix.fits_move fits)
      (Suffix.inner_move fun a ha x hx => ihs a ha x hx fun y hy =>
        inner y (List.mem_flatMap.2 ⟨a, ha, a.steps_inner hx hy⟩))
    rw [← Suffix.accessors_move inner, Suffix.steps_flatMap_move] at built
    simp only [Surface.Expr.move, List.map_append]
    exact built
  | unsigned _ ih => exact .unsigned (ih keeps)
  | @signed place e xs signs ne ops _ ih =>
    have moved := Sign.signs_move fun x hx =>
      keeps x.step (List.mem_append_left _ (List.mem_map_of_mem hx))
    have built := @Script.signed place _ _ (signs.map (Sign.move f)) (by simpa using ne)
      (List.forall_mem_map.2 ops) (ih fun x hx => keeps x (List.mem_append_right _ hx))
    rw [← moved] at built
    simp only [List.map_map] at built
    simp only [Surface.Expr.move, List.map_append, List.map_map]
    exact built
  | single _ ih => exact .single (ih keeps)
  | @chain place e xs links ne _ ops _ closed ih ihs =>
    have inner : ∀ l ∈ links, ∀ y ∈ l.steps, y.Keeps f := fun l hl y hy =>
      keeps y (List.mem_append_right _ (List.mem_flatMap.2 ⟨l, hl, hy⟩))
    have operands : (e.move f :: (links.map (Link.move f)).map fun l => l.operand.expr).dropLast =
        ((e :: links.map fun l => l.operand.expr).dropLast).map (Surface.Expr.move f) := by
      rw [List.map_dropLast, List.map_cons, List.map_map, List.map_map]
      rfl
    have built := Script.chain (links.map (Link.move f)) (by simpa using ne)
      (ih fun x hx => keeps x (List.mem_append_left _ hx)) (List.forall_mem_map.2 ops)
      (List.forall_mem_map.2 fun l hl => ihs l hl fun y hy => inner l hl y (by
        simp [Link.steps, hy]))
      (by
        rw [operands]
        exact List.forall_mem_map.2 fun x hx => (endsOpen_move x).trans (closed x hx))
    rw [Link.steps_flatMap_move, List.map_map] at built
    simp only [Surface.Expr.move, List.map_append, moveLinks_eq, List.map_map]
    exact built

/-! ## Out of a placeholder

Behind the first token of a placeholder there may be an equals sign, which makes it an option. So
this token has more looked for behind it than elsewhere. No other step tells that a script was taken
out of a placeholder.
-/

/-- What is looked for behind a token where no option of a placeholder may start with it. -/
def unnamed (after : Expect) : Expect :=
  if after = Expect.afterPlaceholderName then Expect.afterName
  else if after = Expect.afterPlaceholderTruth then Expect.afterOperand
  else after

/-- The steps with another expectation behind the first. -/
def unnamedHead : List Step → List Step
  | [] => []
  | x :: xs => ⟨x.token, unnamed x.after⟩ :: xs

/-- Only the first of some steps is changed. -/
theorem unnamedHead_append {xs : List Step} (ne : xs ≠ []) (ys : List Step) :
    unnamedHead (xs ++ ys) = unnamedHead xs ++ ys := by
  cases xs with
  | nil => exact absurd rfl ne
  | cons x xs => rfl

theorem unnamed_afterName (place : Place) : unnamed place.afterName = Expect.afterName := by
  cases place <;> decide

theorem unnamed_afterTruth (place : Place) : unnamed place.afterTruth = Expect.afterOperand := by
  cases place <;> decide

theorem unnamed_of_ne {after : Expect} (name : after ≠ Expect.afterPlaceholderName)
    (truth : after ≠ Expect.afterPlaceholderTruth) : unnamed after = after := by
  rw [unnamed, if_neg name, if_neg truth]

/-- An expression at the start of a placeholder is an expression elsewhere. -/
theorem Script.unnamedHead {level : Level} {place : Place} {σ : Surface.Expr} {xs : List Step}
    (h : Script level place σ xs) : Script level .plain σ (unnamedHead xs) := by
  have other : ∀ {t : Token} {after : Expect} {xs : List Step},
      after ≠ Expect.afterPlaceholderName → after ≠ Expect.afterPlaceholderTruth →
      Parser.unnamedHead (⟨t, after⟩ :: xs) = ⟨t, after⟩ :: xs := by
    intro t after xs name truth
    rw [Parser.unnamedHead, unnamed_of_ne name truth]
  induction h with
  | @boolean place t value kind =>
    rw [Parser.unnamedHead, unnamed_afterTruth]
    exact .boolean t value kind
  | null t kind =>
    rw [other (by decide) (by decide)]
    exact .null t kind
  | number k t kind =>
    rw [other (by decide) (by decide)]
    exact .number k t kind
  | @name place t kind =>
    rw [Parser.unnamedHead, unnamed_afterName]
    exact .name t kind
  | string q start close parts opened closed fits inner _ =>
    rw [other (by cases q <;> decide) (by cases q <;> decide)]
    exact .string q start close parts opened closed fits inner
  | array bracket close items opened closed scripts separated _ =>
    rw [other (by decide) (by decide)]
    exact .array bracket close items opened closed scripts separated
  | group paren close opened closed inner _ =>
    rw [other (by decide) (by decide)]
    exact .group paren close opened closed inner
  | pair paren comma close opened between closed left right _ _ =>
    rw [other (by decide) (by decide)]
    exact .pair paren comma close opened between closed left right
  | map brace close items opened closed colons keys values separated _ _ =>
    rw [other (by decide) (by decide)]
    exact .map brace close items opened closed colons keys values separated
  | choice kwIf kwThen kwElse hif hthen helse a b c _ _ _ =>
    rw [other (by decide) (by decide)]
    exact .choice kwIf kwThen kwElse hif hthen helse a b c
  | @apply place name paren close arguments xs named opened closed scripts separated _ =>
    rw [Parser.unnamedHead, unnamed_afterName]
    exact .apply name paren close arguments named opened closed scripts separated
  | @struct place name brace close ms xs named opened closed fits values separated _ =>
    rw [Parser.unnamedHead, unnamed_afterName]
    exact .struct name brace close ms named opened closed fits values separated
  | bare _ ih => exact .bare ih
  | accessed suffixes ne closed inner fits indices ih _ =>
    rw [unnamedHead_append inner.ne_nil]
    exact .accessed suffixes ne closed ih fits indices
  | unsigned _ ih => exact .unsigned ih
  | @signed place e xs signs ne ops inner _ =>
    obtain ⟨x, signs, rfl⟩ := List.exists_cons_of_ne_nil ne
    have same : Parser.unnamedHead ((x :: signs).map Sign.step ++ xs) =
        (x :: signs).map Sign.step ++ xs := other (by decide) (by decide)
    rw [same]
    exact .signed (x :: signs) ne ops inner
  | single _ ih => exact .single ih
  | chain links ne inner ops operands closed ih _ =>
    rw [unnamedHead_append inner.ne_nil]
    exact .chain links ne ih ops operands closed

end Parser

end Wdl
