import Wdl.Proofs.Contexts
import Wdl.Proofs.Legible
import Wdl.Proofs.Spans
import Wdl.Proofs.Transposition

/-!
# Wdl.Proofs.Excerpts -- an expression is what its piece of the text says

The tokens of an expression are found again when its piece of the text is cut out and parsed alone:
the first one among the terminals that an expression starts with, the others where they were found
before, the last one before the end. They write the same expression at another place.

* `Step.Tame` says that literal text is looked for inside strings only, which makes the state of the
  scanner at the start of the piece irrelevant. `Script.tame` is an induction over scripts.
* `Common` is what all such inductions have in common: a property that tokens without text have
  wherever no literal text is looked for. It has a lemma for each construct, so that a new property
  needs only the cases of strings.

The piece of an expression differs from the text in two places. Behind its last token the text ends;
there `Legible.cut` says that the same tokens are found (`Wdl.Proofs.Lexemes` has the reason). In
front of its first token another `Expect` was used; `Legible.restart` says that the first token is
found among those of `Expect.expr`, and that what is looked for behind it, `unnamed l.after`, finds
the same second one. The latter needs `Script.second`: behind the first word of a placeholder an
equal sign is looked for as well, but no expression goes on with one.

`Parser.Script.excerpt` puts this together for expressions with a script. A name that stands for
itself as the input of a call has none, and is treated on its own (`Parser.shorthand_excerpt`); that
is where the keywords have to be reserved. `Node.Parsed.excerpt_same` is the result.
-/

namespace Wdl

open Scan

/-! ## Where literal text is looked for -/

namespace Parser

/-- Where a text in single quotes is looked for, nothing else is that may start like one. -/
def lone (A : Expect) : Bool :=
  !A.contains (.quoted .single) || (!A.contains (.mark .single) && !A.contains .versionWord)

/-- Literal text is looked for inside strings only, and not twice in a row. Texts in single quotes
are looked for on their own. -/
structure Step.Tame (x : Step) : Prop where
  after : calm x.after = true ∨ ∃ q, x.after = Expect.inString q
  lone : lone x.after = true
  literal : ∀ q, x.token.kind = .stringText q → x.after = Expect.afterStringText q

/-- A token that is not literal text is tame if no literal text is looked for behind it. -/
theorem Step.Tame.of_calm {t : Token} {after : Expect} (plain : isLiteral t.kind = false)
    (h : (calm after && Parser.lone after) = true) : Step.Tame ⟨t, after⟩ := by
  obtain ⟨quiet, alone⟩ := Bool.and_eq_true_iff.1 h
  refine ⟨.inl quiet, alone, fun q kind => ?_⟩
  rw [show t.kind = .stringText q from kind] at plain
  cases plain

/-- A token of a kind that is not literal text is tame if no literal text is looked for behind it.
-/
theorem Step.Tame.of_kind {t : Token} {after : Expect} {k : Terminal} (kind : t.kind = k)
    (plain : isLiteral k = false) (h : (calm after && Parser.lone after) = true) :
    Step.Tame ⟨t, after⟩ :=
  .of_calm (by rw [kind]; exact plain) h

/-- What holds of what is in brackets and of the brackets holds of all of it. -/
theorem forall_enclosed {α : Type} {P : α → Prop} {a b : α} {xs : List α} (opened : P a)
    (inner : ∀ x ∈ xs, P x) (closed : P b) : ∀ x ∈ a :: (xs ++ [b]), P x := by
  rw [List.forall_mem_cons, List.forall_mem_append, List.forall_mem_singleton]
  exact ⟨opened, inner, closed⟩

/-- What holds of items and commas holds of a list of items. -/
theorem Separated.forall {P : Step → Prop} {after : Expect} {items : List (List Step)}
    {xs : List Step} (h : Separated after items xs)
    (comma : ∀ t : Token, t.kind = .symbol .comma → P ⟨t, after⟩)
    (each : ∀ ys ∈ items, ∀ x ∈ ys, P x) : ∀ x ∈ xs, P x := by
  have more : ∀ {items : List (List Step)} {xs : List Step}, More after items xs →
      (∀ ys ∈ items, ∀ x ∈ ys, P x) → ∀ x ∈ xs, P x := by
    intro items xs h each
    induction h with
    | nil => simp
    | trailing t kind =>
      intro x hx
      obtain rfl := List.mem_singleton.1 hx
      exact comma t kind
    | cons t kind _ ih =>
      intro x hx
      rcases List.mem_cons.1 hx with rfl | hx
      · exact comma t kind
      · rcases List.mem_append.1 hx with hx | hx
        · exact each _ (by simp) x hx
        · exact ih (fun ys hy => each ys (by simp [hy])) x hx
  cases h with
  | nil => simp
  | cons rest =>
    intro x hx
    rcases List.mem_append.1 hx with hx | hx
    · exact each _ (by simp) x hx
    · exact more rest (fun ys hy => each ys (by simp [hy])) x hx

/-- The tokens of an option are tame. -/
theorem OptionPiece.tame {o : OptionPiece} (h : o.Fits) : ∀ x ∈ o.steps, x.Tame := by
  obtain ⟨name, equal, value⟩ := h
  intro x hx
  simp only [OptionPiece.steps, List.mem_cons, List.not_mem_nil, or_false] at hx
  rcases hx with rfl | rfl | rfl
  · obtain ⟨⟨token, after⟩, _, _⟩ := o
    simp only [optionName?] at name
    split at name
    all_goals first
      | (rename_i kind; cases name; exact .of_kind kind rfl (by decide))
      | cases name
  · exact .of_kind equal rfl (by decide)
  · obtain ⟨_, _, v⟩ := o
    cases v with
    | quoted q t => exact .of_kind value rfl (by decide)
    | number kind t => exact .of_kind value rfl (by decide)

/-- The tokens of a part of a string are tame. -/
theorem PartPiece.tame {q : Quote} {p : PartPiece} (fits : p.Fits (.string q))
    (inner : ∀ x ∈ p.inner, ∀ y ∈ x.steps, y.Tame) : ∀ x ∈ p.steps (.string q), x.Tame := by
  cases p with
  | text t =>
    intro x hx
    obtain rfl := List.mem_singleton.1 hx
    refine ⟨.inl (by cases q <;> rfl), by cases q <;> rfl, fun q' kind => ?_⟩
    have same : t.kind = .stringText q := fits
    rw [show t.kind = .stringText q' from kind] at same
    cases same
    rfl
  | hole opener close h =>
    obtain ⟨opened, closed, options⟩ := fits
    intro x hx
    simp only [PartPiece.steps, Hole.steps, List.mem_cons, List.mem_append, List.mem_flatMap,
      List.not_mem_nil, or_false] at hx
    rcases hx with rfl | (⟨o, ho, hx⟩ | hx) | rfl
    · exact .of_kind opened rfl (by decide)
    · exact OptionPiece.tame (options o ho) x hx
    · exact inner h.body (by simp [PartPiece.inner]) x hx
    · refine ⟨.inr ⟨q, rfl⟩, by cases q <;> rfl, fun q' kind => ?_⟩
      rw [show close.kind = .stringText q' from kind] at closed
      cases closed

/-! ### Properties of all steps

These are the constructs of an expression, one by one. What is asked of the pieces inside is the
hypothesis of an induction, and `Common` gives the rest. -/

/-- A terminal whose tokens hold no text of a string. -/
def isTextless : Terminal → Bool
  | .stringText _ | .commandText _ | .quoted _ => false
  | _ => true

/-- Signs hold no text. -/
theorem unaryOp?_textless {t : Terminal} {op : UnaryOp} (h : unaryOp? t = some op) :
    isTextless t = true := by
  cases t <;> first | rfl | cases h

/-- Operators hold no text. -/
theorem binaryOp?_textless {t : Terminal} {op : BinaryOp} (h : binaryOp? t = some op) :
    isTextless t = true := by
  cases t <;> first | rfl | cases h

/-- A property of steps that a token without text has if no literal text is looked for behind it. -/
def Common (P : Step → Prop) : Prop :=
  ∀ t after, isTextless t.kind = true → (calm after && lone after) = true → P ⟨t, after⟩

namespace Common

variable {P : Step → Prop} {t : Token} {after : Expect} {k : Terminal} {xs ys zs : List Step}

/-- A token of a kind without text has the property. -/
theorem of_kind (common : Common P) (kind : t.kind = k) (textless : isTextless k = true)
    (quiet : (calm after && lone after) = true) : P ⟨t, after⟩ :=
  common t after (by rw [kind]; exact textless) quiet

theorem name (common : Common P) (kind : t.kind = .name) (place : Place) :
    P ⟨t, place.afterName⟩ :=
  common.of_kind kind rfl (by cases place <;> rfl)

/-- The steps of what is in brackets, the brackets included. -/
theorem enclosed (common : Common P) {opener closer : Token} {open_ close : Terminal}
    {inside : Expect} (opened : opener.kind = open_) (textless : isTextless open_ = true)
    (quiet : (calm inside && lone inside) = true) (inner : ∀ x ∈ xs, P x)
    (closed : closer.kind = close) (textless' : isTextless close = true) :
    ∀ x ∈ ⟨opener, inside⟩ :: (xs ++ [⟨closer, Expect.afterOperand⟩]), P x :=
  forall_enclosed (common.of_kind opened textless quiet) inner
    (common.of_kind closed textless' rfl)

/-- The steps of a pair. -/
theorem pair (common : Common P) {paren comma close : Token}
    (opened : paren.kind = .symbol .parenOpen)
    (between : comma.kind = .symbol .comma) (closed : close.kind = .symbol .parenClose)
    (left : ∀ x ∈ xs, P x) (right : ∀ x ∈ ys, P x) :
    ∀ x ∈ ⟨paren, Expect.expr⟩ ::
      (xs ++ ⟨comma, Expect.expr⟩ :: (ys ++ [⟨close, Expect.afterOperand⟩])), P x :=
  List.forall_mem_cons.2 ⟨common.of_kind opened rfl rfl, List.forall_mem_append.2
    ⟨left, common.enclosed between rfl rfl right closed rfl⟩⟩

/-- The steps of a choice. -/
theorem choice (common : Common P) {kwIf kwThen kwElse : Token}
    (hif : kwIf.kind = .keyword .kwIf) (hthen : kwThen.kind = .keyword .kwThen)
    (helse : kwElse.kind = .keyword .kwElse) (condition : ∀ x ∈ xs, P x)
    (consequent : ∀ x ∈ ys, P x) (alternative : ∀ x ∈ zs, P x) :
    ∀ x ∈ ⟨kwIf, Expect.expr⟩ ::
      (xs ++ ⟨kwThen, Expect.expr⟩ :: (ys ++ ⟨kwElse, Expect.expr⟩ :: zs)), P x := by
  simp only [List.forall_mem_cons, List.forall_mem_append]
  exact ⟨common.of_kind hif rfl rfl, condition, common.of_kind hthen rfl rfl, consequent,
    common.of_kind helse rfl rfl, alternative⟩

/-- The steps of an entry of a map. -/
theorem item (common : Common P) {i : ItemPiece} (colon : i.colon.kind = .symbol .colon)
    (key : ∀ x ∈ i.key.steps, P x) (value : ∀ x ∈ i.value.steps, P x) : ∀ x ∈ i.steps, P x :=
  List.forall_mem_append.2 ⟨key, List.forall_mem_cons.2 ⟨common.of_kind colon rfl rfl, value⟩⟩

/-- The steps of a member of a struct. -/
theorem member (common : Common P) {m : MemberPiece} (key : P m.key.step)
    (colon : m.colon.kind = .symbol .colon) (value : ∀ x ∈ m.value.steps, P x) :
    ∀ x ∈ m.steps, P x :=
  List.forall_mem_cons.2 ⟨key, List.forall_mem_cons.2 ⟨common.of_kind colon rfl rfl, value⟩⟩

/-- The steps of an access. -/
theorem suffix (common : Common P) {a : Suffix} (fits : a.Fits)
    (inner : ∀ i ∈ a.inner, ∀ x ∈ i.steps, P x) : ∀ x ∈ a.steps, P x := by
  cases a with
  | member dot name =>
    obtain ⟨first, last⟩ := fits
    exact List.forall_mem_cons.2 ⟨common.of_kind first rfl rfl,
      List.forall_mem_singleton.2 (common.of_kind last rfl rfl)⟩
  | index bracket close i =>
    obtain ⟨first, last⟩ := fits
    exact common.enclosed first rfl rfl (inner i (by simp [Suffix.inner])) last rfl

/-- The steps of signs. -/
theorem signs (common : Common P) {signs : List Sign}
    (ops : ∀ x ∈ signs, unaryOp? x.token.kind = some x.op) : ∀ x ∈ signs.map Sign.step, P x :=
  List.forall_mem_map.2 fun x hx => common _ _ (unaryOp?_textless (ops x hx)) rfl

/-- The steps of an operator and the operand behind it. -/
theorem link (common : Common P) {l : Link} (op : binaryOp? l.sign.kind = some l.op)
    (operand : ∀ x ∈ l.operand.steps, P x) : ∀ x ∈ l.steps, P x :=
  List.forall_mem_cons.2 ⟨common _ _ (binaryOp?_textless op) rfl, operand⟩

/-- Commas between items have it with them. -/
theorem separated (common : Common P) (quiet : (calm after && lone after) = true)
    {items : List (List Step)} (h : Separated after items xs)
    (each : ∀ ys ∈ items, ∀ x ∈ ys, P x) : ∀ x ∈ xs, P x :=
  h.forall (fun _ kind => common.of_kind kind rfl quiet) each

end Common

/-- Being tame is such a property. -/
theorem Step.Tame.common : Common Step.Tame := by
  intro t after textless quiet
  refine .of_calm ?_ quiet
  cases kind : t.kind with
  | stringText q => rw [kind] at textless; cases textless
  | commandText style => rw [kind] at textless; cases textless
  | _ => rfl

/-- The token of a key is tame. -/
theorem KeyToken.tame {k : KeyToken} (fits : k.Fits) : k.step.Tame := by
  cases k with
  | word t => exact .of_kind fits rfl rfl
  | quoted q t => exact .of_kind fits rfl rfl

/-- The steps that write an expression look for literal text inside strings only. -/
theorem Script.tame {level : Level} {place : Place} {σ : Surface.Expr} {xs : List Step}
    (h : Script level place σ xs) : ∀ x ∈ xs, x.Tame := by
  have common := Step.Tame.common
  induction h with
  | @boolean place t value kind =>
    exact List.forall_mem_singleton.2 (.of_kind kind rfl (by cases place <;> rfl))
  | null t kind => exact List.forall_mem_singleton.2 (.of_kind kind rfl rfl)
  | number k t kind => exact List.forall_mem_singleton.2 (.of_kind kind rfl rfl)
  | @name place t kind => exact List.forall_mem_singleton.2 (common.name kind place)
  | string q start close parts opened closed fits _ ih =>
    refine forall_enclosed ⟨.inr ⟨q, rfl⟩, by cases q <;> rfl, fun q' kind => ?_⟩ ?_
      (.of_kind closed rfl rfl)
    · rw [show start.kind = .stringText q' from kind] at opened
      cases opened
    · intro x hx
      obtain ⟨p, hp, hx⟩ := List.mem_flatMap.1 hx
      exact PartPiece.tame (fits p hp) (ih p hp) x hx
  | array bracket close items opened closed _ separated ih =>
    have inner := common.separated rfl separated (List.forall_mem_map.2 ih)
    exact common.enclosed opened rfl rfl inner closed rfl
  | group paren close opened closed _ ih => exact common.enclosed opened rfl rfl ih closed rfl
  | pair paren comma close opened between closed _ _ ihl ihr =>
    exact common.pair opened between closed ihl ihr
  | map brace close items opened closed colons _ _ separated ihk ihv =>
    have each : ∀ i ∈ items, ∀ x ∈ i.steps, x.Tame := fun i hi =>
      common.item (colons i hi) (ihk i hi) (ihv i hi)
    have inner := common.separated rfl separated (List.forall_mem_map.2 each)
    exact common.enclosed opened rfl rfl inner closed rfl
  | choice kwIf kwThen kwElse hif hthen helse _ _ _ iha ihb ihc =>
    exact common.choice hif hthen helse iha ihb ihc
  | @apply place name paren close arguments xs named opened closed _ separated ih =>
    have inner := common.separated rfl separated (List.forall_mem_map.2 ih)
    exact List.forall_mem_cons.2 ⟨common.name named place,
      common.enclosed opened rfl rfl inner closed rfl⟩
  | @struct place name brace close ms xs named opened closed fits _ separated ih =>
    have each : ∀ m ∈ ms, ∀ x ∈ m.steps, x.Tame := fun m hm =>
      common.member (KeyToken.tame (fits m hm).1) (fits m hm).2 (ih m hm)
    have inner := common.separated rfl separated (List.forall_mem_map.2 each)
    exact List.forall_mem_cons.2 ⟨common.name named place,
      common.enclosed opened rfl rfl inner closed rfl⟩
  | bare _ ih => exact ih
  | accessed suffixes _ _ _ fits _ ih ihs =>
    refine List.forall_mem_append.2 ⟨ih, fun x hx => ?_⟩
    obtain ⟨a, ha, hx⟩ := List.mem_flatMap.1 hx
    exact common.suffix (fits a ha) (ihs a ha) x hx
  | unsigned _ ih => exact ih
  | signed signs _ ops _ ih => exact List.forall_mem_append.2 ⟨common.signs ops, ih⟩
  | single _ ih => exact ih
  | chain links _ _ ops _ _ ih ihs =>
    refine List.forall_mem_append.2 ⟨ih, fun x hx => ?_⟩
    obtain ⟨l, hl, hx⟩ := List.mem_flatMap.1 hx
    exact common.link (ops l hl) (ihs l hl) x hx

end Parser

open Wdl.Parser

/-! ## Texts that are cut, and go on otherwise

What a token is found as can depend on the text behind it. Cutting the text does no harm behind a
token other than literal text, for the scanner is steady: what it finds in a text it finds in front
of a line feed. -/

variable {fe : FrontEnd} {A : Expect} {gap chars r r' : List Char} {kind : Terminal}
  {rules : Rules} {source : SourceText}

/-- Literal text is found without a gap in front. -/
theorem FrontEnd.Reads.literal (h : fe.Reads A gap kind chars r) (literal : isLiteral kind = true) :
    gap = [] ∧ literal? A (chars ++ r) = some (kind, chars.length) := by
  rcases h with h | ⟨-, -, found⟩
  · exact h
  · rw [plain?_eq_some found] at literal
    cases literal

/-- Any other token is found behind layout, where no literal text starts. -/
theorem FrontEnd.Reads.plain (h : fe.Reads A gap kind chars r) (plain : isLiteral kind = false) :
    literal? A (gap ++ (chars ++ r)) = none ∧
      layoutLength false (gap ++ (chars ++ r)) = gap.length ∧
      plain? fe A (chars ++ r) = some (kind, chars.length) := by
  rcases h with ⟨-, found⟩ | h
  · rw [(literal?_eq_some found).2.1] at plain
    cases plain
  · exact h

/-- A token other than literal text is found before another text, if the scanner finds it there and
no literal text starts. -/
theorem FrontEnd.Reads.before (h : fe.Reads A gap kind chars r) (plain : isLiteral kind = false)
    (none : literal? A (gap ++ (chars ++ r')) = none)
    (found : plain? fe A (chars ++ r') = some (kind, chars.length)) :
    fe.Reads A gap kind chars r' := by
  obtain ⟨-, layout, -⟩ := h.plain plain
  refine .inr ⟨none, ?_, found⟩
  obtain ⟨b, split, stop⟩ := layoutLength_split false (gap ++ (chars ++ r))
  rw [layout, List.take_left] at split
  rw [layout, List.drop_left] at stop
  have ne : chars ≠ [] := List.ne_nil_of_length_pos h.pos
  exact split.layoutLength_eq (layoutLength_token ne (h.ends plain) stop _)

/-- What ends literal text of a string is no layout. -/
theorem layoutLength_eq_zero {q : Quote} {c : Char} (h : c = q.char ∨ isSigil c = true)
    (cs : List Char) : layoutLength false (c :: cs) = 0 := by
  have carriage : c ≠ '\r' := by
    rintro rfl
    rcases h with h | h
    · cases q <;> cases h
    · cases h
  have other : c ≠ '\n' ∧ c ≠ '#' ∧ c ≠ ' ' ∧ c ≠ '\t' := by
    refine ⟨?_, ?_, ?_, ?_⟩ <;>
    · rintro rfl
      rcases h with h | h
      · cases q <;> cases h
      · cases h
  rw [layoutLength, if_neg carriage]
  · simp [other]
  · rintro rest eq
    exact absurd eq carriage

/-- Where no literal text of a string starts, there is no gap. -/
theorem gap_eq_nil {q : Quote} (stop : stringTextLength q (gap ++ r) = 0)
    (layout : layoutLength false (gap ++ r) = gap.length) : gap = [] := by
  cases gap with
  | nil => rfl
  | cons c gap =>
    rw [List.cons_append, layoutLength_eq_zero (stringTextLength_cons_eq_zero stop)] at layout
    cases layout

theorem literal?_inString_eq_none {q : Quote} {cs : List Char} :
    literal? (Expect.inString q) cs = none ↔ stringTextLength q cs = 0 := by
  rw [literal?_inString, Option.map_eq_none_iff, positive?]
  split <;> simp_all

/-- What ends literal text of a string does so whatever comes next. -/
theorem stringTextLength_ended {q : Quote}
    (hA : A = Expect.inString q ∨ A = Expect.afterStringText q)
    (found : plain? fe A (chars ++ r) = some (kind, chars.length)) (cs : List Char) :
    stringTextLength q (chars ++ cs) = 0 := by
  rcases plain?_inString hA found with ⟨-, eq⟩ | ⟨-, c, sigil, eq⟩
  · rw [List.take_left] at eq
    rw [eq]
    exact stringTextLength_mark q cs
  · rw [List.take_left] at eq
    rw [eq]
    exact stringTextLength_opening q sigil cs

/-- Inside a string, a token other than literal text is found if the scanner finds it. -/
theorem FrontEnd.Reads.before_inString {q : Quote}
    (h : fe.Reads (Expect.inString q) gap kind chars r) (plain : isLiteral kind = false)
    (found : plain? fe (Expect.inString q) (chars ++ r') = some (kind, chars.length)) :
    fe.Reads (Expect.inString q) gap kind chars r' := by
  obtain ⟨none, layout, found'⟩ := h.plain plain
  obtain rfl := gap_eq_nil (literal?_inString_eq_none.1 none) layout
  have ended := stringTextLength_ended (.inl rfl) found' r'
  exact h.before plain (literal?_inString_eq_none.2 ended) found

/-- Literal text of a string is found again before the token that ends it. -/
theorem FrontEnd.Reads.before_literal {q : Quote} {gap' chars' : List Char} {kind' : Terminal}
    (h : fe.Reads (Expect.inString q) gap kind chars (gap' ++ (chars' ++ r)))
    (literal : isLiteral kind = true)
    (next : fe.Reads (Expect.afterStringText q) gap' kind' chars' r) (r' : List Char) :
    fe.Reads (Expect.inString q) gap kind chars (gap' ++ (chars' ++ r')) := by
  obtain ⟨rfl, found⟩ := h.literal literal
  have plain : isLiteral kind' = false := by
    by_contra other
    have found' := (next.literal (by simpa using other)).2
    rw [calm_literal? (by cases q <;> rfl)] at found'
    cases found'
  obtain ⟨-, layout, found'⟩ := next.plain plain
  rw [literal?_inString] at found
  obtain ⟨n, size, eq⟩ := Option.map_eq_some_iff.1 found
  obtain ⟨size, pos⟩ := positive?_eq_some.1 size
  cases eq
  have stop := stringTextLength_rest q _ chars size
  obtain rfl := gap_eq_nil stop layout
  -- the literal text ends because of the first character of the next token
  obtain ⟨a, tail, rfl⟩ := List.exists_cons_of_ne_nil (List.ne_nil_of_length_pos next.pos)
  have stop' := stringTextLength_ended (.inr rfl) found' r'
  refine .inl ⟨rfl, ?_⟩
  rw [literal?_inString]
  have size' := stringTextLength_append q a (tail ++ r) (tail ++ r') stop' chars size
  simp only [List.nil_append, List.cons_append] at size' ⊢
  rw [size', positive?_eq_some.2 ⟨rfl, pos⟩]
  rfl

/-- A text that is legible up to a token other than literal text is legible before another text, if
the scanner finds its tokens there. -/
theorem Legible.before {ls : List Lexeme} (h : Legible fe A ls r)
    (looked : calm A = true ∨ ∃ q, A = Expect.inString q)
    (tame : ∀ l ∈ ls, (l.step 0).Tame) (last : ∀ l, ls.getLast? = some l → isLiteral l.kind = false)
    (keeps : ∀ B ∈ A :: ls.map Lexeme.after, ∀ l ∈ ls, ∀ cs,
      plain? fe B (l.chars ++ (cs ++ r)) = some (l.kind, l.chars.length) →
      plain? fe B (l.chars ++ (cs ++ r')) = some (l.kind, l.chars.length)) :
    Legible fe A ls r' := by
  induction ls generalizing A with
  | nil => trivial
  | cons l ls ih =>
    obtain ⟨reads, more⟩ := h
    have here := tame l (by simp)
    have behind := ih more here.after (fun m hm => tame m (by simp [hm]))
      (fun m hm => last m (by rw [List.getLast?_cons, hm]; rfl))
      (fun B hB m hm => keeps B (List.mem_cons_of_mem A hB) m (List.mem_cons_of_mem l hm))
    refine ⟨?_, behind⟩
    cases literal : isLiteral l.kind with
    | false =>
      have found := keeps A (by simp) l (by simp) _ (reads.plain literal).2.2
      rcases looked with quiet | ⟨q, rfl⟩
      · exact reads.before literal (calm_literal? quiet _) found
      · exact reads.before_inString literal found
    | true =>
      obtain ⟨-, found⟩ := reads.literal literal
      rcases looked with quiet | ⟨q, rfl⟩
      · rw [calm_literal? quiet] at found
        cases found
      · have kind : l.kind = .stringText q := by
          rw [literal?_inString] at found
          obtain ⟨n, -, eq⟩ := Option.map_eq_some_iff.1 found
          exact (congrArg Prod.fst eq).symm
        have after : l.after = Expect.afterStringText q := here.literal q kind
        cases ls with
        | nil =>
          rw [last l rfl] at literal
          cases literal
        | cons m ls =>
          rw [after] at more
          rw [spelled_cons, List.append_assoc, List.append_assoc] at reads ⊢
          exact reads.before_literal literal more.1 _

/-- A text that is legible up to a token other than literal text is legible when it is cut there. -/
theorem Legible.cut {ls : List Lexeme} (h : Legible fe A ls r)
    (looked : calm A = true ∨ ∃ q, A = Expect.inString q)
    (tame : ∀ l ∈ ls, (l.step 0).Tame)
    (last : ∀ l, ls.getLast? = some l → isLiteral l.kind = false) : Legible fe A ls ['\n'] := by
  refine h.before looked tame last fun B _ l _ cs found => ?_
  rw [← List.append_assoc] at found ⊢
  exact (steady_plain fe B).keeps found (by simp)

/-- A text that is legible up to a token other than literal text does not end with a line break. -/
theorem Legible.ends {ls : List Lexeme} (h : Legible fe A ls r)
    (last : ∀ l, ls.getLast? = some l → isLiteral l.kind = false) :
    ∀ c, (spelled ls).getLast? = some c → isBreak c = false := by
  induction ls generalizing A with
  | nil => simp
  | cons l ls ih =>
    obtain ⟨reads, more⟩ := h
    intro c hc
    cases ls with
    | nil =>
      have ne : l.chars ≠ [] := List.ne_nil_of_length_pos reads.pos
      rw [spelled_cons, spelled_nil, List.append_nil, List.getLast?_append_of_ne_nil _ ne] at hc
      exact reads.ends (last l rfl) c hc
    | cons m ls =>
      have ne : spelled (m :: ls) ≠ [] := by
        have pos := more.1.pos
        rw [spelled_cons]
        intro empty
        simp_all
      rw [spelled_cons, ← List.append_assoc, List.getLast?_append_of_ne_nil _ ne] at hc
      refine ih more (fun m' hm => last m' ?_) c hc
      rw [List.getLast?_cons, hm]
      rfl

/-! ## Texts that start with an expression

What is looked for where an expression starts depends on where that is: behind a bracket the one
that closes is looked for too, and in a placeholder names of options are. Only the latter makes a
difference to the tokens that follow. -/

/-- Where layout outside a comment is left nothing is layout. -/
theorem layoutLength_outside {cs : List Char} (h : layoutLength true cs = 0) :
    layoutLength false cs = 0 := by
  unfold layoutLength at h ⊢
  split at h
  · rfl
  · cases h
  · rename_i c rest other
    split at h
    · rename_i carriage
      rw [if_pos carriage]
    · split at h
      · cases h
      · cases h

/-- A token is found again without the gap in front of it. -/
theorem FrontEnd.Reads.layout_eq_zero (h : fe.Reads A gap kind chars r)
    (plain : isLiteral kind = false) : layoutLength false (chars ++ r) = 0 := by
  obtain ⟨-, layout, -⟩ := h.plain plain
  obtain ⟨b, -, stop⟩ := layoutLength_split false (gap ++ (chars ++ r))
  rw [layout, List.drop_left] at stop
  cases b with
  | false => exact stop
  | true => exact layoutLength_outside stop

/-- What starts an expression is looked for where one may start. -/
theorem startsExpr_mem {t : Terminal} (h : startsExpr t = true) : t ∈ Expect.expr := by
  cases t with
  | keyword k => cases k <;> first | decide | cases h
  | symbol s => cases s <;> first | decide | cases h
  | name => decide
  | number kind => cases kind <;> decide
  | mark q => cases q <;> decide
  | _ => cases h

/-- No literal text starts an expression. -/
theorem startsExpr_plain {t : Terminal} (h : startsExpr t = true) : isLiteral t = false := by
  cases t <;> first | rfl | cases h

/-- The first token of an expression is found where just an expression is looked for. -/
theorem FrontEnd.Reads.start (h : fe.Reads A gap kind chars r) (opening : A ∈ openings)
    (starts : startsExpr kind = true) : fe.Reads Expect.expr [] kind chars r := by
  have plain := startsExpr_plain starts
  have sub : Expect.expr ⊆ A := by
    have each : ∀ A ∈ openings, Expect.expr ⊆ A := by decide
    exact each A opening
  refine .inr ⟨calm_literal? rfl _, h.layout_eq_zero plain, ?_⟩
  exact plain?_mono sub (by decide) (by decide) (h.plain plain).2.2 (startsExpr_mem starts)

/-- What is looked for behind the first token of a placeholder but an equal sign is looked for
elsewhere, among symbols that do not start alike. -/
def Replaces (A B : Expect) : Prop :=
  ∀ s ∈ Symbol.all, .symbol s ∈ A → s ≠ .equal → .symbol s ∈ B ∧
    ∀ t ∈ Symbol.all, .symbol t ∈ B → t.spelling.head? = s.spelling.head? → .symbol t ∈ A

/-- Behind a name an equal sign is all that an option adds. -/
theorem replaces_afterName : Replaces Expect.afterPlaceholderName Expect.afterName := by
  unfold Replaces
  decide

/-- Behind a truth value an equal sign is all that an option adds. -/
theorem replaces_afterOperand : Replaces Expect.afterPlaceholderTruth Expect.afterOperand := by
  unfold Replaces
  decide

/-- No symbol starts a name. -/
theorem nameLength?_symbol (s : Symbol) (cs : List Char) :
    nameLength? (s.spelling ++ cs) = none := by
  cases s <;> rfl

/-- A symbol other than an equal sign is found in either place. -/
theorem plain?_replace {B : Expect} {found : Terminal × Nat} {cs : List Char} (h : Replaces A B)
    (symbols : ∀ t ∈ A, ∃ s, t = .symbol s) (punctual : B.all isPunctual = true)
    (name : .name ∈ B) (plain : plain? fe A cs = some found) (other : found.1 ≠ .symbol .equal) :
    plain? fe B cs = some found := by
  have punctual' : A.all isPunctual = true := by
    refine List.all_eq_true.2 fun t ht => ?_
    obtain ⟨s, rfl⟩ := symbols t ht
    rfl
  have word : word? A cs = none := word?_unlooked (fun mem => by simpa using symbols _ mem)
    fun k mem => by simpa using symbols _ mem
  rw [plain?_punctual punctual' word] at plain
  obtain ⟨k, n⟩ := found
  obtain ⟨s, eq⟩ := symbol?_kind plain
  cases eq
  obtain ⟨looked, size, -⟩ := symbol?_eq_some.1 plain
  obtain ⟨mem, alike⟩ := h s s.mem_all looked (by simpa using other)
  obtain ⟨-, rest, rfl⟩ := spellingLength?_eq_some.1 size
  have word : word? B (s.spelling ++ rest) = none := by
    rw [word?_eq name, nameLength?_symbol]
    rfl
  rw [plain?_punctual punctual word]
  exact symbol?_elsewhere plain mem fun t => alike t t.mem_all

/-- Behind the first token of a placeholder, what is no equal sign is found as it is elsewhere. -/
theorem plain?_unnamed {found : Terminal × Nat} {cs : List Char} (changed : unnamed A ≠ A)
    (h : plain? fe A cs = some found) (other : found.1 ≠ .symbol .equal) :
    plain? fe (unnamed A) cs = some found := by
  unfold unnamed at changed ⊢
  split
  · rename_i eq
    subst eq
    refine plain?_replace replaces_afterName ?_ (by decide) (by decide) h other
    simp [Expect.afterPlaceholderName, Expect.afterPlaceholderTruth, Expect.binaries,
      Expect.accesses]
  · split
    · rename_i eq
      subst eq
      refine plain?_replace replaces_afterOperand ?_ (by decide) (by decide) h other
      simp [Expect.afterPlaceholderTruth, Expect.binaries, Expect.accesses]
    · exact h

/-- In an expression no equal sign follows a token that might be the name of an option. -/
theorem Parser.Script.second {level : Level} {place : Place} {σ : Surface.Expr} {zs : List Step}
    (h : Script level place σ zs) {x y : Step} {xs : List Step} (eq : zs = x :: y :: xs)
    (changed : unnamed x.after ≠ x.after) : y.token.kind ≠ .symbol .equal := by
  have never : ∀ {t : Token} {after : Expect} {ys xs : List Step}, unnamed after = after →
      ⟨t, after⟩ :: ys = x :: y :: xs → y.token.kind ≠ .symbol .equal := by
    intro t after ys xs same eq
    cases eq
    exact absurd same changed
  -- behind an operand of one token the rest of the steps comes next
  have behind : ∀ {vs ws xs : List Step}, vs ≠ [] → vs ++ ws = x :: y :: xs →
      (vs = [x] ∧ ws = y :: xs) ∨ ∃ us, vs = x :: y :: us := by
    intro vs ws xs ne eq
    match vs, ne with
    | [v], _ =>
      cases eq
      exact .inl ⟨rfl, rfl⟩
    | v :: v' :: vs, _ =>
      cases eq
      exact .inr ⟨vs, rfl⟩
  induction h generalizing xs with
  | boolean t value kind => cases eq
  | null t kind => cases eq
  | number k t kind => cases eq
  | name t kind => cases eq
  | string q start close parts opened closed fits _ _ =>
    exact never (by cases q <;> decide) eq
  | array bracket close items opened closed _ separated _ => exact never (by decide) eq
  | group paren close opened closed _ _ => exact never (by decide) eq
  | pair paren comma close opened between closed _ _ _ _ => exact never (by decide) eq
  | map brace close items opened closed colons _ _ separated _ _ => exact never (by decide) eq
  | choice kwIf kwThen kwElse hif hthen helse _ _ _ _ _ _ => exact never (by decide) eq
  -- behind a name stands a bracket, a brace, an access or an operator, each of a kind of its own
  | apply name paren close arguments named opened closed _ separated _ =>
    cases eq
    rw [show paren.kind = _ from opened]
    decide
  | struct name brace close ms named opened closed fits _ separated _ =>
    cases eq
    rw [show brace.kind = _ from opened]
    decide
  | bare _ ih => exact ih eq
  | accessed suffixes ne _ inner fits _ ih _ =>
    rcases behind inner.ne_nil eq with ⟨-, eq⟩ | ⟨us, eq⟩
    · obtain ⟨a, as, rfl⟩ := List.exists_cons_of_ne_nil ne
      have fit := fits a (by simp)
      cases a with
      | member dot name =>
        cases eq
        rw [show dot.kind = _ from fit.1]
        decide
      | index bracket close p =>
        cases eq
        rw [show bracket.kind = _ from fit.1]
        decide
    · exact ih eq
  | unsigned _ ih => exact ih eq
  | signed signs ne ops _ _ =>
    obtain ⟨z, signs, rfl⟩ := List.exists_cons_of_ne_nil ne
    exact never (by decide) eq
  | single _ ih => exact ih eq
  | chain links ne inner ops _ _ ih _ =>
    rcases behind inner.ne_nil eq with ⟨-, eq⟩ | ⟨us, eq⟩
    · obtain ⟨l, links, rfl⟩ := List.exists_cons_of_ne_nil ne
      cases eq
      intro kind
      have op := ops l (by simp)
      rw [show l.sign.kind = _ from kind] at op
      cases op
    · exact ih eq

/-- Behind the first token of a placeholder no literal text is looked for. -/
theorem calm_of_changed (changed : unnamed A ≠ A) : calm A = true ∧ calm (unnamed A) = true := by
  unfold unnamed at changed ⊢
  split
  · rename_i eq
    subst eq
    exact ⟨rfl, rfl⟩
  · rename_i other
    split
    · rename_i eq
      subst eq
      exact ⟨rfl, rfl⟩
    · rename_i other'
      rw [if_neg other, if_neg other'] at changed
      exact absurd rfl changed

/-- Where no literal text is looked for, none is found. -/
theorem FrontEnd.Reads.calm (h : fe.Reads A gap kind chars r) (quiet : calm A = true) :
    isLiteral kind = false := by
  by_contra other
  have found := (h.literal (by simpa using other)).2
  rw [calm_literal? quiet] at found
  cases found

/-- A text that starts with an expression is legible on its own. -/
theorem Legible.restart {l : Lexeme} {ls : List Lexeme} (h : Legible fe A (l :: ls) r)
    (opening : A ∈ openings) (starts : startsExpr l.kind = true)
    (second : unnamed l.after ≠ l.after → ∀ m, ls.head? = some m → m.kind ≠ .symbol .equal) :
    Legible fe Expect.expr (⟨[], l.kind, l.chars, unnamed l.after⟩ :: ls) r := by
  refine ⟨h.1.start opening starts, ?_⟩
  by_cases changed : unnamed l.after = l.after
  · rw [changed]
    exact h.2
  · cases ls with
    | nil => trivial
    | cons m ls =>
      obtain ⟨reads, more⟩ := h.2
      obtain ⟨quiet, quiet'⟩ := calm_of_changed changed
      obtain ⟨-, layout, found⟩ := reads.plain (reads.calm quiet)
      refine ⟨.inr ⟨calm_literal? quiet' _, layout, ?_⟩, more⟩
      exact plain?_unnamed changed found (second changed m rfl)

/-! ## Excerpts

Moving the steps back by the position of the first token makes them those of the piece
(`Parser.Script.alone`). The first one has no gap, since the piece starts with it. -/

/-- Lexemes further ahead are the same lexemes moved. -/
theorem stepsFrom_move (at_ k : Nat) (ls : List Lexeme) :
    (stepsFrom (at_ + k) ls).map (Step.move (· - k)) = stepsFrom at_ ls := by
  induction ls generalizing at_ with
  | nil => rfl
  | cons l ls ih =>
    have first : Step.move (· - k) (l.step (at_ + k)) = l.step at_ := by
      simp only [Step.move, Token.move, Lexeme.step, Step.mk.injEq, Token.mk.injEq, and_true,
        true_and]
      omega
    rw [stepsFrom, List.map_cons, first, Nat.add_right_comm, ih]
    rfl

/-- What a script of any layer writes is an expression. -/
theorem Parser.Script.toExpr {level : Level} {place : Place} {σ : Surface.Expr} {xs : List Step}
    (h : Script level place σ xs) : Script .expr place σ xs := by
  cases level with
  | primary => exact .single (.unsigned (.bare h))
  | accessed => exact .single (.unsigned h)
  | operand => exact .single h
  | expr => exact h

/-- A text that does not end with a line feed is ended by one. -/
theorem terminated_eq {cs : List Char} (h : cs.getLast? ≠ some '\n') :
    terminated cs = cs ++ ['\n'] := if_neg h

/-- What holds of the steps of lexemes holds of each lexeme somewhere. -/
theorem forall_lexemes {at_ : Nat} {ls : List Lexeme} {P : Step → Prop}
    (h : ∀ x ∈ stepsFrom at_ ls, P x) : ∀ l ∈ ls, ∃ b, P (l.step b) := by
  induction ls generalizing at_ with
  | nil => simp
  | cons l ls ih =>
    obtain ⟨here, others⟩ := List.forall_mem_cons.1 h
    exact List.forall_mem_cons.2 ⟨⟨at_, here⟩, ih others⟩

/-- The lexemes of an expression end with a token other than literal text. -/
theorem Parser.Script.last_plain {level : Level} {place : Place} {σ : Surface.Expr} {at_ : Nat}
    {ls : List Lexeme} (h : Script level place σ (stepsFrom at_ ls)) :
    ∀ l, ls.getLast? = some l → isLiteral l.kind = false := by
  intro l last
  obtain ⟨y, last', -, plain⟩ := h.endsExpr
  have same := congrArg List.getLast? (stepsFrom_map at_ ls)
  rw [List.getLast?_map, List.getLast?_map, last, last'] at same
  rw [← show y.token.kind = l.kind from congrArg Prod.fst (Option.some.inj same)]
  exact plain

/-- The lexemes of an expression, read where just an expression is looked for. -/
def Lexeme.alone (l : Lexeme) : Lexeme := ⟨[], l.kind, l.chars, unnamed l.after⟩

/-- What lexemes write at some place, they write alone. -/
theorem Parser.Script.alone {level : Level} {place : Place} {σ : Surface.Expr} {at_ : Nat}
    {l : Lexeme} {ls : List Lexeme} (h : Script level place σ (stepsFrom at_ (l :: ls))) :
    Script .expr .plain (σ.move (· - (at_ + l.gap.length))) (stepsFrom 0 (l.alone :: ls)) := by
  have keeps : ∀ x ∈ Parser.unnamedHead (stepsFrom at_ (l :: ls)),
      x.Keeps (· - (at_ + l.gap.length)) := by
    intro x hx
    have le : at_ + l.gap.length ≤ x.token.start := by
      rcases List.mem_cons.1 hx with rfl | hx
      · exact Nat.le_refl _
      · refine Nat.le_trans ?_ (le_start_stepsFrom x hx)
        simp [Lexeme.text]
    show x.token.start + x.token.chars.length - _ = x.token.start - _ + x.token.chars.length
    omega
  -- no token starts in front of the first one, so moving back keeps all their lengths
  have moved := (h.unnamedHead.move keeps).toExpr
  have first : Step.move (· - (at_ + l.gap.length)) ⟨(l.step at_).token, unnamed l.after⟩ =
      l.alone.step 0 := by
    simp [Step.move, Token.move, Lexeme.step, Lexeme.alone]
  have rest : (stepsFrom (at_ + l.text.length) ls).map (Step.move (· - (at_ + l.gap.length))) =
      stepsFrom (0 + l.alone.text.length) ls := by
    have start : at_ + l.text.length = 0 + l.alone.text.length + (at_ + l.gap.length) := by
      simp only [Lexeme.text, Lexeme.alone, List.nil_append, List.length_append]
      omega
    rw [start]
    exact stepsFrom_move _ _ ls
  rw [stepsFrom, ← first, ← rest]
  exact moved

/-- What the lexemes of an expression say in a text, they say alone. -/
theorem Parser.Script.excerpt {level : Level} {place : Place} {σ : Surface.Expr}
    {e : Expr} {l : Lexeme} {ls : List Lexeme} {at_ : Nat}
    (script : Script level place σ (stepsFrom at_ (l :: ls))) (built : Build.expr rules σ = .ok e)
    (legible : Legible rules.frontEnd A (l :: ls) r) (opening : A ∈ openings)
    (text : terminated source.chars = l.chars ++ spelled ls ++ ['\n']) :
    ∃ e', (parseExpr rules source).result = .ok e' ∧ (Node.expr e').same (.expr e) = true := by
  have quiet : calm A = true := by
    have each : ∀ A ∈ openings, calm A = true := by decide
    exact each A opening
  have tame : ∀ m ∈ l :: ls, (m.step 0).Tame := by
    intro m hm
    obtain ⟨b, h⟩ := forall_lexemes script.tame m hm
    exact ⟨h.after, h.lone, h.literal⟩
  have starts : Parser.startsExpr l.kind = true := by
    obtain ⟨x, head, starts, -⟩ := script.startsExpr
    cases head
    exact starts
  have second : unnamed l.after ≠ l.after →
      ∀ m, ls.head? = some m → m.kind ≠ .symbol .equal := by
    intro changed m head
    obtain ⟨ms, rfl⟩ := List.head?_eq_some_iff.1 head
    exact script.second rfl changed
  -- first the text behind the piece is cut away, then the one in front
  have cut := legible.cut (.inl quiet) tame script.last_plain
  have alone := cut.restart opening starts second
  have spells : terminated source.chars = spelled (l.alone :: ls) ++ ['\n'] := by
    rw [text]
    simp [Lexeme.alone]
  have parsed := alone.parse spells rfl script.alone
  refine ⟨_, parseExpr_eq_ok parsed (Build.expr_move rules σ built), ?_⟩
  show (Expr.view _).same e.view = true
  rw [Expr.view_move]
  exact View.same_iff.2 rfl

/-! ## Every expression of a text -/

/-- A name is parsed alone to itself, whatever was looked for where it was found. -/
theorem Parser.shorthand_excerpt {A : Expect} {c c' : Cursor} {t : Token}
    (next : rules.frontEnd.next A c = .ok (some t, c')) (kind : t.kind = .name)
    (unreserved : Build.checkName rules (word t) = .ok ())
    (reserved : ∀ k, .keyword k ∈ Expect.expr → String.ofList k.spelling ∈ rules.reserved)
    (spans : source.chars = t.chars) :
    (parseExpr rules source).result = .ok (.ident ⟨0, t.chars.length⟩ t.text) := by
  obtain ⟨gap, text, start, -, reads⟩ := next_eq_some.1 next
  have plain : isLiteral t.kind = false := by
    rw [kind]
    rfl
  have ends : source.chars.getLast? ≠ some '\n' := by
    intro last
    rw [spans] at last
    cases reads.ends plain _ last
  have allowed : ¬ rules.reserved.contains t.text = true := by
    intro mem
    rw [Build.checkName, word, if_pos mem] at unreserved
    cases unreserved
  -- the name is no keyword, as it is not reserved
  have found := (reads.plain plain).2.2
  rw [kind] at found
  have size := nameLength?_of_plain? found
  have name : plain? rules.frontEnd Expect.expr (t.chars ++ c'.rest) =
      some (.name, t.chars.length) := by
    refine plain?_expr_name size fun k looked spells => ?_
    rw [List.take_left] at spells
    have mem := reserved k looked
    rw [spells] at mem
    exact allowed (List.contains_iff_mem.2 mem)
  have legible : Legible rules.frontEnd Expect.expr [⟨[], .name, t.chars, Expect.afterName⟩]
      ['\n'] := by
    refine ⟨.inr ⟨calm_literal? rfl _, ?_, ?_⟩, trivial⟩
    · exact layoutLength_token (List.ne_nil_of_length_pos reads.pos) (reads.ends plain)
        (reads.layout_eq_zero plain) _
    · exact (steady_plain rules.frontEnd _).keeps name (Nat.le_refl _)
  have script : Script .expr .plain (.name (word ⟨.name, t.chars, 0⟩))
      (stepsFrom 0 [⟨[], .name, t.chars, Expect.afterName⟩]) :=
    Script.toExpr (@Script.name .plain _ rfl)
  have parsed := legible.parse (by rw [terminated_eq ends, spans]; simp) rfl script
  have built : Build.expr rules (.name (word ⟨.name, t.chars, 0⟩)) = .ok
      (.ident ⟨0, t.chars.length⟩ t.text) := by
    have free : Build.checkName rules (word ⟨.name, t.chars, 0⟩) = .ok () := if_neg allowed
    rw [Build.expr, free]
    show Except.ok (Expr.ident (Token.range ⟨.name, t.chars, 0⟩) t.text) = _
    simp [Token.range, Token.stop]
  exact parseExpr_eq_ok parsed built

/-- What an expression of a text spans, it says alone, if the keywords that expressions start with
are reserved. -/
theorem Parser.Origin.excerpt {cs : List Char} {e : Expr} (h : Origin rules.frontEnd rules cs e)
    (reserved : ∀ k, .keyword k ∈ Expect.expr → String.ofList k.spelling ∈ rules.reserved)
    (piece : source.chars = (cs.drop e.range.start).take (e.range.stop - e.range.start)) :
    ∃ e', (parseExpr rules source).result = .ok e' ∧ (Node.expr e').same (.expr e) = true := by
  cases h with
  | script sound started run script built =>
    obtain ⟨A, opening, c, on, found⟩ := started
    obtain ⟨ls, rest, legible, rfl, text, -⟩ := run.legible found
    cases ls with
    | nil => exact absurd rfl script.ne_nil
    | cons l ls =>
      have range := (Build.expr_range rules _ built).trans script.range_eq
      rw [spanOf_stepsFrom] at range
      have spans : source.chars = l.chars ++ spelled ls := by
        rw [on.eq, spelled_cons, List.append_assoc, List.append_assoc] at text
        rw [piece, range, ← List.drop_drop, text, List.drop_left, ← List.append_assoc,
          List.take_left']
        simp only [spelled_cons, List.length_append]
        omega
      have ne : l.chars ++ spelled ls ≠ [] := by
        have pos := legible.1.pos
        intro empty
        simp_all
      -- the last token is not literal text, so it does not end with a line feed, and one is added
      have ends : source.chars.getLast? ≠ some '\n' := by
        intro last
        have same : (spelled (l :: ls)).getLast? = some '\n' := by
          rw [spelled_cons, List.getLast?_append_of_ne_nil _ ne, ← spans, last]
        cases legible.ends script.last_plain _ same
      exact script.excerpt built legible opening (by rw [terminated_eq ends, spans])
  -- a name that stands for its own value is no expression of the text, but spans its token
  | @shorthand t A c c' on next kind unreserved =>
    have spans : source.chars = t.chars := by
      obtain ⟨gap, text, start, -, -⟩ := next_eq_some.1 next
      rw [piece]
      show (cs.drop t.start).take (t.stop - t.start) = t.chars
      rw [start, ← List.drop_drop, ← on.eq, text, List.drop_left, ← start, Token.stop,
        Nat.add_sub_cancel_left, List.take_left]
    exact ⟨_, shorthand_excerpt next kind unreserved reserved spans, View.same_iff.2 rfl⟩

/-- What every expression of a tree spans, it says when it is parsed alone. -/
theorem Node.Parsed.excerpt_same (fe : FrontEnd) (N : CharacterNames) (source : SourceText)
    (uri abspath : String) {e : Expr} (h : (Node.expr e).Parsed ⟨fe, reservedWords, N⟩ source) :
    ∃ e', (parseExpr ⟨fe, reservedWords, N⟩
        (.ofString (source.piece (source.span e.range)) uri abspath)).result = .ok e' ∧
      (Node.expr e').same (.expr e) = true := by
  obtain ⟨sited, inside⟩ := h.sited
  have placed := sited.here.placed
  have denotes := source.span_denotes placed.ordered inside
  have keywords : ∀ k ∈ Keyword.all, .keyword k ∈ Expect.expr →
      String.ofList k.spelling ∈ reservedWords := by decide
  refine sited.here.origin.excerpt (fun k => keywords k k.mem_all) ?_
  show (source.piece (source.span (Node.expr e).range)).toList = _
  rw [source.piece_eq denotes, String.toList_ofList]
  -- the line feed that ends the text is behind the expression
  unfold terminated
  split
  · rfl
  · have below : (Node.expr e).range.stop - (Node.expr e).range.start ≤
        (source.chars.drop (Node.expr e).range.start).length := by
      rw [List.length_drop]
      omega
    have start := Nat.le_trans placed.ordered inside
    show _ = ((source.chars ++ ['\n']).drop (Node.expr e).range.start).take _
    rw [List.drop_append_of_le_length start]
    exact (List.take_append_of_le_length below).symm

/-- The second item of the array `["é",x+y]` is read again from the bytes six to nine. -/
theorem Node.Parsed.excerpt_same_behind_accent :
    let source : SourceText :=
      { chars := ['[', '"', 'é', '"', ',', 'x', '+', 'y', ']'], uri := "", abspath := "" }
    ∃ e : Expr, (Node.expr e).Parsed ⟨.flat, reservedWords, .none⟩ source ∧
      source.piece (source.span e.range) = "x+y" ∧
      ∃ e', (parseExpr ⟨.flat, reservedWords, .none⟩
          (.ofString (source.piece (source.span e.range)) "" "")).result = .ok e' ∧
        (Node.expr e').same (.expr e) = true := by
  intro source
  have found : ((parseExpr ⟨.flat, reservedWords, .none⟩ source).result.toOption.bind fun e =>
      (Node.descendant? [1] (.expr e)).bind fun n => match n with
        | .expr e => some (source.piece (source.span e.range))
        | _ => none) = some "x+y" := by
    decide +kernel
  obtain ⟨root, parsed, found⟩ := Option.bind_eq_some_iff.1 found
  obtain ⟨n, below, found⟩ := Option.bind_eq_some_iff.1 found
  cases n with
  | expr e =>
    have inTree : (Node.expr e).Parsed ⟨.flat, reservedWords, .none⟩ source :=
      ⟨_, _, .expr (toOption_eq_some.1 parsed), below⟩
    exact ⟨e, inTree, Option.some.inj found,
      Node.Parsed.excerpt_same .flat .none source "" "" inTree⟩
  | _ => cases found

end Wdl
