import Wdl.Parser.Document
import Wdl.Proofs.Displacement
import Wdl.Proofs.Transposition

/-!
# Wdl.Proofs.Offsets -- reading the same text further on

A parser does not look at the number of a position. Started with the same text ahead, but further on
by some offset, it takes the same tokens and returns the same surface form, further on by that
offset; or it fails further on. One lemma for each way to put parsers together and one for each rule
carry this from the scanner up to whole documents.

* `Cursor.shift`, `State.shift` and `Rejection.shift` are what it is to be further on. Surface forms
  are moved by the `move` functions of `Wdl.Proofs.Transposition` with `(· + k)`.
* `FrontEnd.next_shift` is the base: the scanner looks at the characters ahead and at nothing else.
* `Shifts k m p q` relates two parsers, of which the second does further on what the first does,
  with `m` applied to what is returned. It relates two because a rule may depend on what was
  returned before it, as `afterName` does on a name. `Portable` is the case of one parser.
* `shifts_bind` and `shifts_seq` are for sequences, `shifts_many`, `shifts_commaList` and
  `shifts_looseList` for lists.
* `shifts_expr` and `shifts_document` are the results for the two kinds of texts, and `shifts_whole`
  carries them to whole texts, whose first tokens are alike.
-/

namespace Wdl

variable {α β γ δ : Type}

/-! ## States -/

/-- The cursor further on. -/
def Cursor.shift (k : Nat) (c : Cursor) : Cursor := ⟨c.pos + k, c.rest⟩

/-- What a scanner finds, further on. -/
def shiftFound (k : Nat) :
    Except Cursor (Option Token × Cursor) → Except Cursor (Option Token × Cursor)
  | .error c => .error (c.shift k)
  | .ok (t, c) => .ok (t.map (Token.move (· + k)), c.shift k)

/-- The rejection further on. -/
def Rejection.shift (k : Nat) : Rejection → Rejection
  | .unexpected t => .unexpected (t.move (· + k))
  | .unfinished last => .unfinished (last.map (Range.move (· + k)))
  | .stray c => .stray (c.shift k)

theorem Cursor.advance_shift (k n : Nat) (c : Cursor) :
    (c.shift k).advance n = (c.advance n).shift k := by
  rw [advance, advance, shift, shift, Nat.add_right_comm]

theorem Scan.takeToken_shift (k : Nat) (c : Cursor) (found : Terminal × Nat) :
    takeToken (c.shift k) found =
      ((takeToken c found).1.move (· + k), (takeToken c found).2.shift k) := by
  rw [takeToken, Cursor.advance_shift]
  rfl

/-- A scanner finds further on what it finds here. -/
theorem FrontEnd.next_shift (fe : FrontEnd) (k : Nat) (A : Expect) (c : Cursor) :
    fe.next A (c.shift k) = shiftFound k (fe.next A c) := by
  unfold next
  rw [show (c.shift k).rest = c.rest from rfl]
  cases Scan.literal? A c.rest with
  | some found =>
    dsimp only
    rw [Scan.takeToken_shift]
    rfl
  | none =>
    -- what is ahead decides how much layout is skipped and which token follows
    dsimp only
    rw [Cursor.advance_shift]
    generalize c.advance (Scan.layoutLength false c.rest) = d
    rw [show (d.shift k).rest = d.rest from rfl]
    split
    · rfl
    · cases Scan.plain? fe A d.rest with
      | some found =>
        dsimp only
        rw [Scan.takeToken_shift]
        rfl
      | none => rfl

namespace Parser

open Surface

/-- The state further on. -/
def State.shift (k : Nat) (s : State) : State :=
  ⟨s.ahead.map (Token.move (· + k)), s.cursor.shift k, s.last.map (Range.move (· + k))⟩

/-- What a parser returns, changed by a map and further on. -/
def shiftResult (k : Nat) (m : α → β) :
    Except Rejection (α × State) → Except Rejection (β × State)
  | .error r => .error (r.shift k)
  | .ok (x, s) => .ok (m x, s.shift k)

/-- A second parser does further on what the first one does, and what it returns is changed by a
map. -/
def Shifts (k : Nat) (m : α → β) (p : Parser α) (q : Parser β) : Prop :=
  ∀ s, q (s.shift k) = shiftResult k m (p s)

/-- A parser does further on what it does here. -/
abbrev Portable (k : Nat) (m : (Nat → Nat) → α → α) (p : Parser α) : Prop :=
  Shifts k (m (· + k)) p p

/-- Further on, each token keeps its length. -/
theorem keeps_shift (k : Nat) (t : Token) (after : Expect) : Step.Keeps (· + k) ⟨t, after⟩ :=
  Nat.add_right_comm t.start t.chars.length k

/-! ## Putting parsers together -/

section Combinators

variable {k : Nat} {fe : FrontEnd} {m : α → β} {n : γ → δ} {p : Parser α} {p' : Parser β}
  {g : α → Parser γ} {g' : β → Parser δ}

/-- One parser behind another: the second gets what the first returned, moved by `m`. -/
theorem shifts_bind (first : Shifts k m p p') (rest : ∀ x, Shifts k n (g x) (g' (m x))) :
    Shifts k n (p >>= g) (p' >>= g') := by
  intro s
  show (p' (s.shift k) >>= fun x => g' x.1 x.2) = shiftResult k n (p s >>= fun x => g x.1 x.2)
  rw [first s]
  cases p s with
  | error r => rfl
  | ok x => exact rest x.1 x.2

/-- What comes first may return nothing that depends on positions. -/
theorem shifts_seq {p p' : Parser α} {g : α → Parser γ} {g' : α → Parser δ}
    (first : Shifts k id p p') (rest : ∀ x, Shifts k n (g x) (g' x)) :
    Shifts k n (p >>= g) (p' >>= g') :=
  shifts_bind first rest

theorem shifts_pure {x : α} {y : β} (h : y = m x) : Shifts k m (pure x) (pure y) := by
  rw [h]
  exact fun s => rfl

theorem shifts_ite {q : Parser α} {q' : Parser β} {b : Bool} (yes : Shifts k m p p')
    (no : Shifts k m q q') : Shifts k m (if b then p else q) (if b then p' else q') := by
  cases b
  · exact no
  · exact yes

theorem shifts_reject : Shifts k m (reject : Parser α) (reject : Parser β) := by
  rintro ⟨_ | t, c, last⟩
  · rfl
  · rfl

theorem shifts_peek : Shifts k id peek peek := by
  rintro ⟨_ | t, c, last⟩
  · rfl
  · rfl

theorem shifts_sees (t : Terminal) : Shifts k id (sees t) (sees t) :=
  shifts_seq shifts_peek fun _ => shifts_pure rfl

theorem shifts_remaining : Shifts k id remaining remaining := fun _ => rfl

/-- Taking a token that is ahead. -/
theorem shift_some (lex : Scanner) (after : Expect) (t : Token) (c : Cursor)
    (last : Option Range) : shift lex after ⟨some t, c, last⟩ =
      match lex after c with
      | .error place => .error (.stray place)
      | .ok (ahead, cursor) => .ok (t, ⟨ahead, cursor, some t.range⟩) := by
  unfold shift
  simp only [bind, StateT.bind, get, getThe, MonadStateOf.get, StateT.get, pure, Except.pure,
    Except.bind]
  cases lex after c <;> rfl

theorem shifts_shift (after : Expect) :
    Portable k Token.move (shift fe.next after) := by
  rintro ⟨_ | t, c, last⟩
  · rfl
  · have range : (t.move (· + k)).range = t.range.move (· + k) :=
      (keeps_shift k t after).range_move
    rw [State.shift, Option.map_some, shift_some, shift_some, fe.next_shift, range]
    cases fe.next after c <;> rfl

theorem shifts_take (t : Terminal) (after : Expect) :
    Portable k Token.move (take fe.next t after) :=
  shifts_seq (shifts_sees t) fun _ => shifts_ite (shifts_shift after) shifts_reject

theorem shifts_optionalSymbol (s : Symbol) (after : Expect) :
    Shifts k id (optionalSymbol fe.next s after) (optionalSymbol fe.next s after) :=
  shifts_seq (shifts_sees _) fun _ =>
    shifts_ite (shifts_bind (shifts_shift after) fun _ => shifts_pure rfl) (shifts_pure rfl)

end Combinators

section Lists

variable {k : Nat} {fe : FrontEnd} {m : (Nat → Nat) → α → α} {item : Parser α}
  (portable : Portable k m item)

include portable

theorem shifts_many (starts : Terminal → Bool) :
    Portable k (fun f => List.map (m f)) (many starts item) := by
  refine shifts_seq shifts_remaining fun n => ?_
  induction n with
  | zero => exact shifts_pure rfl
  | succ n ih =>
    exact shifts_seq shifts_peek fun _ => shifts_ite
      (shifts_bind portable fun _ => shifts_bind ih fun _ => shifts_pure rfl) (shifts_pure rfl)

/-- One more item in front, perhaps behind a comma. -/
theorem shifts_cons {more : Parser (List α)} (rest : Portable k (fun f => List.map (m f)) more) :
    Portable k (fun f => List.map (m f)) (do let x ← item; let xs ← more; return x :: xs) :=
  shifts_bind portable fun _ => shifts_bind rest fun _ => shifts_pure rfl

/-- Items up to a closing symbol: none, or a first one and more. -/
theorem shifts_items {close : Symbol} {more : Nat → Parser (List α)}
    (rest : ∀ n, Portable k (fun f => List.map (m f)) (more n)) :
    Portable k (fun f => List.map (m f)) (do
      if ← sees (.symbol close) then return []
      else
        let x ← item
        let xs ← more (← remaining)
        return x :: xs) :=
  shifts_seq (shifts_sees _) fun _ => shifts_ite (shifts_pure rfl) <|
    shifts_bind portable fun _ => shifts_seq shifts_remaining fun n =>
      shifts_bind (rest n) fun _ => shifts_pure rfl

theorem shifts_commaList (close : Symbol) (after : Expect) :
    Portable k (fun f => List.map (m f)) (commaList fe.next close after item) := by
  have more : ∀ n, Portable k (fun f => List.map (m f)) (moreUpTo fe.next close after item n) := by
    intro n
    induction n with
    | zero => exact shifts_pure rfl
    | succ n ih =>
      exact shifts_seq (shifts_optionalSymbol _ _) fun _ => shifts_ite
        (shifts_seq (shifts_sees _) fun _ => shifts_ite (shifts_pure rfl) (shifts_cons portable ih))
        (shifts_pure rfl)
  exact shifts_items portable more

theorem shifts_looseList (close : Symbol) (after : Expect) :
    Portable k (fun f => List.map (m f)) (looseList fe.next close after item) := by
  have more : ∀ n, Portable k (fun f => List.map (m f)) (looseUpTo fe.next close after item n) := by
    intro n
    induction n with
    | zero => exact shifts_pure rfl
    | succ n ih =>
      exact shifts_seq (shifts_optionalSymbol _ _) fun _ => shifts_ite
        (shifts_seq (shifts_sees _) fun _ => shifts_ite (shifts_pure rfl) (shifts_cons portable ih))
        (shifts_seq (shifts_sees _) fun _ => shifts_ite (shifts_cons portable ih) (shifts_pure rfl))
  exact shifts_items portable more

end Lists

/-! ## Expressions

Each rule is portable if the parsers inside it are. `expr` and `operand` stand for those, up to
`shifts_operand` and `shifts_exprUpTo`, which bound how deep they nest. -/

section Rules

variable {k : Nat} {fe : FrontEnd}

theorem stop_shift (k : Nat) (t : Token) : (t.move (· + k)).stop = t.stop + k :=
  (keeps_shift k t Expect.expr).stop_move

/-- What is made of the range of a token moves with the token. -/
theorem shifts_single {m : α → α} (make : Range → α) (after : Expect)
    (moved : ∀ r, m (make r) = make (r.move (· + k))) :
    Shifts k m (do return make (← shift fe.next after).range)
      (do return make (← shift fe.next after).range) :=
  shifts_bind (shifts_shift after) fun t =>
    shifts_pure (by rw [(keeps_shift k t after).range_move, moved])

theorem shifts_takeName (after : Expect) :
    Portable k Word.move (takeName fe.next after) :=
  shifts_bind (shifts_take .name after) fun t => shifts_pure (keeps_shift k t after).word_move

theorem shifts_takeNumber (after : Expect) :
    Portable k Number.move (takeNumber fe.next after) := by
  refine shifts_seq shifts_peek fun _ => ?_
  split
  · exact shifts_bind (shifts_shift after) fun t =>
      shifts_pure ((keeps_shift k t after).numeral_move _)
  · exact shifts_reject

theorem shifts_takeQuoted :
    Portable k Quoted.move (takeQuoted fe.next) := by
  refine shifts_seq shifts_peek fun _ => ?_
  split
  · exact shifts_bind (shifts_shift _) fun t =>
      shifts_pure (keeps_shift k t Expect.afterQuoted).quoted_move
  · exact shifts_reject

section Inner

variable {expr : Parser Surface.Expr} (inner : Portable k Surface.Expr.move expr)

include inner

theorem shifts_accessor :
    Portable k Accessor.move (accessor fe.next expr) :=
  shifts_seq (shifts_sees _) fun _ => shifts_ite
    (shifts_bind (shifts_shift _) fun _ => shifts_bind (shifts_takeName _) fun _ =>
      shifts_pure rfl)
    (shifts_bind (shifts_take _ _) fun _ => shifts_bind inner fun _ =>
      shifts_bind (shifts_take _ _) fun close => shifts_pure (by rw [stop_shift]; rfl))

theorem shifts_accessed (subject : Surface.Expr) :
    Shifts k (Surface.Expr.move (· + k)) (accessed fe.next expr subject)
      (accessed fe.next expr (subject.move (· + k))) := by
  refine shifts_bind (shifts_many (shifts_accessor inner) _) fun as => ?_
  cases as with
  | nil => exact shifts_pure rfl
  | cons a as => exact shifts_pure (by rw [Surface.Expr.move, Surface.moveAccessors_eq])

theorem shifts_structMember :
    Portable k (fun f x => (x.1.move f, x.2.move f)) (structMember fe.next expr) :=
  shifts_seq (shifts_sees _) fun _ => shifts_ite
    (shifts_bind (shifts_takeName _) fun _ => shifts_bind (shifts_take _ _) fun _ =>
      shifts_bind inner fun _ => shifts_pure rfl)
    (shifts_bind shifts_takeQuoted fun _ => shifts_bind (shifts_take _ _) fun _ =>
      shifts_bind inner fun _ => shifts_pure rfl)

theorem shifts_afterName (name : Word) :
    Shifts k (Surface.Expr.move (· + k)) (afterName fe.next expr name)
      (afterName fe.next expr (name.move (· + k))) := by
  refine shifts_seq (shifts_sees _) fun _ => shifts_ite ?apply
    (shifts_seq (shifts_sees _) fun _ => shifts_ite ?struct ?name)
  case apply =>
    exact shifts_bind (shifts_shift _) fun _ => shifts_bind (shifts_commaList inner _ _) fun _ =>
      shifts_bind (shifts_take _ _) fun _ =>
        shifts_pure (by rw [stop_shift, Surface.Expr.move, Surface.moveExprs_eq]; rfl)
  case struct =>
    exact shifts_bind (shifts_shift _) fun _ =>
      shifts_bind (shifts_commaList (shifts_structMember inner) _ _) fun _ =>
        shifts_bind (shifts_take _ _) fun _ =>
          shifts_pure (by rw [stop_shift, Surface.Expr.move, Surface.moveMembers_eq]; rfl)
  case name => exact shifts_pure (by rw [Surface.Expr.move])

theorem shifts_array : Portable k Surface.Expr.move (array fe.next expr) :=
  shifts_bind (shifts_take _ _) fun _ => shifts_bind (shifts_commaList inner _ _) fun _ =>
    shifts_bind (shifts_take _ _) fun _ =>
      shifts_pure (by rw [stop_shift, Surface.Expr.move, Surface.moveExprs_eq]; rfl)

theorem shifts_parenthesized :
    Portable k Surface.Expr.move (parenthesized fe.next expr) :=
  shifts_bind (shifts_take _ _) fun _ => shifts_bind inner fun _ =>
    shifts_seq (shifts_optionalSymbol _ _) fun _ => shifts_ite
      (shifts_bind inner fun _ => shifts_bind (shifts_take _ _) fun _ =>
        shifts_pure (by rw [stop_shift, Surface.Expr.move]; rfl))
      (shifts_bind (shifts_take _ _) fun _ =>
        shifts_pure (by rw [stop_shift, Surface.Expr.move]; rfl))

theorem shifts_mapItem :
    Portable k (fun f x => (x.1.move f, x.2.move f)) (mapItem fe.next expr) :=
  shifts_bind inner fun _ => shifts_bind (shifts_take _ _) fun _ => shifts_bind inner fun _ =>
    shifts_pure rfl

theorem shifts_map : Portable k Surface.Expr.move (map fe.next expr) :=
  shifts_bind (shifts_take _ _) fun _ =>
    shifts_bind (shifts_commaList (shifts_mapItem inner) _ _) fun _ =>
      shifts_bind (shifts_take _ _) fun _ =>
        shifts_pure (by rw [stop_shift, Surface.Expr.move, Surface.movePairs_eq]; rfl)

theorem shifts_choice :
    Portable k Surface.Expr.move (choice fe.next expr) :=
  shifts_bind (shifts_take _ _) fun _ => shifts_bind inner fun _ =>
    shifts_bind (shifts_take _ _) fun _ => shifts_bind inner fun _ =>
      shifts_bind (shifts_take _ _) fun _ => shifts_bind inner fun _ =>
        shifts_pure (by rw [Surface.Expr.range_move, Surface.Expr.move]; rfl)

end Inner

/-- A chain is read link by link, and its range goes from the first operand to the last. -/
theorem shifts_chainFrom {operand : Parser Surface.Expr}
    (outer : Portable k Surface.Expr.move operand) (first : Surface.Expr) :
    Shifts k (Surface.Expr.move (· + k)) (chainFrom fe.next operand first)
      (chainFrom fe.next operand (first.move (· + k))) := by
  have links : ∀ n, Portable k (fun f => List.map fun x => (x.1, x.2.move f))
      (chainUpTo fe.next operand n) := by
    intro n
    induction n with
    | zero => exact shifts_pure rfl
    | succ n ih =>
      refine shifts_seq shifts_peek fun _ => ?_
      split
      · exact shifts_bind (shifts_shift _) fun _ => shifts_bind outer fun _ =>
          shifts_bind ih fun _ => shifts_pure rfl
      · exact shifts_pure rfl
  refine shifts_seq shifts_remaining fun n => shifts_bind (links n) fun rest => ?_
  cases rest with
  | nil => exact shifts_pure rfl
  | cons link rest => exact shifts_pure (by rw [Surface.Expr.move, Surface.moveLinks_eq])

theorem shifts_signsUpTo (n : Nat) :
    Portable k (fun f => List.map fun x => (x.1, x.2.move f)) (signsUpTo fe.next n) := by
  induction n with
  | zero => exact shifts_pure rfl
  | succ n ih =>
    refine shifts_seq shifts_peek fun _ => ?_
    split
    · exact shifts_bind (shifts_shift _) fun t => shifts_bind ih fun _ => shifts_pure (by
        rw [(keeps_shift k t Expect.expr).range_move]
        rfl)
    · exact shifts_pure rfl

/-! ## Placeholders and strings -/

theorem shifts_optionValue :
    Portable k OptionValue.move (optionValue fe.next) := by
  refine shifts_seq shifts_peek fun _ => ?_
  split
  · exact shifts_bind shifts_takeQuoted fun _ => shifts_pure rfl
  · exact shifts_bind (shifts_takeNumber _) fun _ => shifts_pure rfl

theorem shifts_placeholderOption (name : Word) :
    Shifts k (PlaceholderOption.move (· + k)) (placeholderOption fe.next name)
      (placeholderOption fe.next (name.move (· + k))) :=
  shifts_bind (shifts_take _ _) fun _ => shifts_bind shifts_optionValue fun v =>
    shifts_pure (by cases v <;> rfl)

section Operand

variable {expr operand : Parser Surface.Expr} (inner : Portable k Surface.Expr.move expr)
  (outer : Portable k Surface.Expr.move operand)

include inner outer

theorem shifts_placeholderUpTo (n : Nat) :
    Portable k (fun f x => (x.1.map (PlaceholderOption.move f), x.2.move f))
      (placeholderUpTo fe.next expr operand n) := by
  induction n with
  | zero => exact shifts_reject
  | succ n ih =>
    have option : ∀ name : Word,
        Shifts k (fun x => (x.1.map (PlaceholderOption.move (· + k)), x.2.move (· + k)))
          (do
            let o ← placeholderOption fe.next name
            let x ← placeholderUpTo fe.next expr operand n
            return (o :: x.1, x.2))
          (do
            let o ← placeholderOption fe.next (name.move (· + k))
            let x ← placeholderUpTo fe.next expr operand n
            return (o :: x.1, x.2)) := fun name =>
      shifts_bind (shifts_placeholderOption name) fun _ => shifts_bind ih fun _ => shifts_pure rfl
    have finish : ∀ primary : Surface.Expr,
        Shifts k (fun x => (x.1.map (PlaceholderOption.move (· + k)), x.2.move (· + k)))
          (do return ([], ← chainFrom fe.next operand (← accessed fe.next expr primary)))
          (do return ([], ← chainFrom fe.next operand
            (← accessed fe.next expr (primary.move (· + k))))) := fun primary =>
      shifts_bind (shifts_accessed inner primary) fun first =>
        shifts_bind (shifts_chainFrom outer first) fun _ => shifts_pure rfl
    -- a truth value names an option or is one, just as a name does
    have truth : ∀ (name : Word) (value : Bool),
        Shifts k (fun x => (x.1.map (PlaceholderOption.move (· + k)), x.2.move (· + k)))
          (do return ([], ← chainFrom fe.next operand
            (← accessed fe.next expr (.boolean name.range value))))
          (do return ([], ← chainFrom fe.next operand
            (← accessed fe.next expr (.boolean (name.move (· + k)).range value)))) := by
      intro name value
      have finished := finish (.boolean name.range value)
      rw [Surface.Expr.move] at finished
      exact finished
    have taken : ∀ t : Token, word (t.move (· + k)) = (word t).move (· + k) := fun t =>
      (keeps_shift k t Expect.afterPlaceholderTruth).word_move
    refine shifts_seq shifts_peek fun _ => ?_
    split
    · exact shifts_bind (shifts_takeName _) fun name => shifts_seq (shifts_sees _) fun _ =>
        shifts_ite (option name) (shifts_bind (shifts_afterName inner name) finish)
    · refine shifts_bind (shifts_shift _) fun t => ?_
      dsimp only
      rw [taken]
      exact shifts_seq (shifts_sees _) fun _ => shifts_ite (option _) (truth _ true)
    · refine shifts_bind (shifts_shift _) fun t => ?_
      dsimp only
      rw [taken]
      exact shifts_seq (shifts_sees _) fun _ => shifts_ite (option _) (truth _ false)
    · exact shifts_bind inner fun _ => shifts_pure rfl

theorem shifts_placeholder :
    Portable k Surface.Placeholder.move (placeholder fe.next expr operand) := by
  refine shifts_seq shifts_remaining fun n =>
    shifts_bind (shifts_placeholderUpTo inner outer n) fun x => shifts_pure ?_
  obtain ⟨options, e⟩ := x
  dsimp only
  rw [Surface.Placeholder.move, Surface.Expr.range_move]
  cases options <;> rfl

theorem shifts_partsUpTo (text opener : Terminal)
    (afterText inside : Expect) (n : Nat) :
    Portable k (fun f => List.map (Surface.Part.move f))
      (partsUpTo fe.next expr operand text opener afterText inside n) := by
  induction n with
  | zero => exact shifts_pure rfl
  | succ n ih =>
    refine shifts_seq (shifts_sees _) fun _ => shifts_ite ?text
      (shifts_seq (shifts_sees _) fun _ => shifts_ite ?placeholder (shifts_pure rfl))
    case text =>
      exact shifts_bind (shifts_shift _) fun t => shifts_bind ih fun _ => shifts_pure (by
        rw [(keeps_shift k t afterText).range_move]
        rfl)
    case placeholder =>
      exact shifts_bind (shifts_shift _) fun _ =>
        shifts_bind (shifts_placeholder inner outer) fun _ => shifts_bind (shifts_take _ _) fun _ =>
          shifts_bind ih fun _ => shifts_pure rfl

theorem shifts_string (q : Quote) :
    Portable k Surface.Expr.move (string fe.next expr operand q) :=
  shifts_bind (shifts_take _ _) fun _ => shifts_seq shifts_remaining fun n =>
    shifts_bind (shifts_partsUpTo inner outer _ _ _ _ n) fun _ =>
      shifts_bind (shifts_take _ _) fun _ =>
        shifts_pure (by rw [stop_shift, Surface.Expr.move, Surface.moveParts_eq]; rfl)

/-! ## Operands -/

theorem shifts_primary :
    Portable k Surface.Expr.move (primary fe.next expr operand) := by
  refine shifts_seq shifts_peek fun _ => ?_
  split
  · exact shifts_single (Surface.Expr.boolean · true) _ fun _ => by rw [Surface.Expr.move]
  · exact shifts_single (Surface.Expr.boolean · false) _ fun _ => by rw [Surface.Expr.move]
  · exact shifts_single Surface.Expr.null _ fun _ => by rw [Surface.Expr.move]
  · exact shifts_bind (shifts_takeNumber _) fun _ => shifts_pure (by rw [Surface.Expr.move])
  · exact shifts_string inner outer _
  · exact shifts_array inner
  · exact shifts_parenthesized inner
  · exact shifts_map inner
  · exact shifts_choice inner
  · exact shifts_bind (shifts_takeName _) fun name => shifts_afterName inner name
  · exact shifts_reject

theorem shifts_operandWith :
    Portable k Surface.Expr.move (operandWith fe.next expr operand) := by
  refine shifts_seq shifts_remaining fun n => shifts_bind (shifts_signsUpTo n) fun signs =>
    shifts_bind (shifts_primary inner outer) fun first =>
      shifts_bind (shifts_accessed inner first) fun subject => ?_
  cases signs with
  | nil => exact shifts_pure rfl
  | cons sign signs => exact shifts_pure (by rw [Surface.Expr.move])

end Operand

mutual

theorem shifts_operand : (n : Nat) →
    Portable k Surface.Expr.move (Parser.operand fe.next n)
  | 0 => shifts_reject
  | n + 1 => by
    simp only [Parser.operand]
    exact shifts_operandWith (shifts_exprUpTo n) (shifts_operand n)

theorem shifts_exprUpTo : (n : Nat) →
    Portable k Surface.Expr.move (exprUpTo fe.next n)
  | 0 => shifts_reject
  | n + 1 => by
    simp only [exprUpTo]
    exact shifts_bind (shifts_operand n) (shifts_chainFrom (shifts_operand n))

end

/-- An expression is read further on as it is read here. -/
theorem shifts_expr : Portable k Surface.Expr.move (Parser.expr fe.next) :=
  shifts_seq shifts_remaining fun _ => shifts_exprUpTo _

/-! ## Types and declarations -/

theorem shifts_quantifier :
    Portable k (fun f => Option.map fun x => (x.1, x.2.move f)) (quantifier fe.next) := by
  refine shifts_seq shifts_peek fun _ => ?_
  split
  all_goals first
    | exact shifts_bind (shifts_shift _) fun _ => shifts_pure rfl
    | exact shifts_pure rfl

theorem shifts_typeParameters {type : Parser TypeExpr} (inner : Portable k TypeExpr.move type)
    (name : Word) :
    Shifts k (fun x => (x.1.map (TypeExpr.move (· + k)), x.2 + k))
      (typeParameters fe.next type name)
      (typeParameters fe.next type (name.move (· + k))) := by
  have second : Portable k (fun f => List.map (TypeExpr.move f))
      (secondParameter fe.next type) :=
    shifts_seq (shifts_optionalSymbol _ _) fun _ => shifts_ite
      (shifts_bind inner fun _ => shifts_pure rfl) (shifts_pure rfl)
  exact shifts_seq (shifts_optionalSymbol _ _) fun _ => shifts_ite
    (shifts_bind inner fun _ => shifts_bind second fun _ => shifts_bind (shifts_take _ _) fun _ =>
      shifts_pure (by rw [stop_shift]; rfl))
    (shifts_pure rfl)

theorem shifts_typeUpTo (n : Nat) : Portable k TypeExpr.move (typeUpTo fe.next n) := by
  induction n with
  | zero => exact shifts_reject
  | succ n ih =>
    refine shifts_bind (shifts_takeName _) fun name =>
      shifts_bind (shifts_typeParameters ih name) fun parameters =>
        shifts_bind shifts_quantifier fun q => ?_
    cases q with
    | none => exact shifts_pure (by rw [TypeExpr.move, moveTypes_eq]; rfl)
    | some q =>
      refine shifts_pure ?_
      rw [TypeExpr.move, moveTypes_eq, stop_shift]
      rfl

theorem shifts_typeExpr : Portable k TypeExpr.move (typeExpr fe.next) :=
  shifts_seq shifts_remaining shifts_typeUpTo

theorem shifts_initialized (type : TypeExpr) (name : Word) :
    Shifts k (Surface.Decl.move (· + k)) (initialized fe.next type name)
      (initialized fe.next (type.move (· + k)) (name.move (· + k))) :=
  shifts_bind (shifts_take _ _) fun _ => shifts_bind shifts_expr fun e =>
    shifts_pure (by rw [TypeExpr.range_move, Surface.Expr.range_move]; rfl)

theorem shifts_unboundDecl : Portable k Surface.Decl.move (unboundDecl fe.next) :=
  shifts_bind shifts_typeExpr fun _ => shifts_bind (shifts_takeName _) fun _ =>
    shifts_pure (by rw [TypeExpr.range_move]; rfl)

theorem shifts_boundDecl : Portable k Surface.Decl.move (boundDecl fe.next) :=
  shifts_bind shifts_typeExpr fun type => shifts_bind (shifts_takeName _) fun name =>
    shifts_initialized type name

theorem shifts_anyDecl : Portable k Surface.Decl.move (anyDecl fe.next) :=
  shifts_bind shifts_typeExpr fun type => shifts_bind (shifts_takeName _) fun name =>
    shifts_seq (shifts_sees _) fun _ => shifts_ite (shifts_initialized type name)
      (shifts_pure (by rw [TypeExpr.range_move]; rfl))

theorem shifts_declSection (word : Keyword) :
    Portable k (fun f x => (x.1.move f, x.2.map (Surface.Decl.move f)))
      (declSection fe.next word) :=
  shifts_bind (shifts_take _ _) fun _ => shifts_bind (shifts_take _ _) fun _ =>
    shifts_bind (shifts_many shifts_anyDecl _) fun _ => shifts_bind (shifts_take _ _) fun _ =>
      shifts_pure (by rw [stop_shift]; rfl)

/-! ## Meta sections -/

section Meta

variable {value : Parser Surface.Meta} (inner : Portable k Surface.Meta.move value)

include inner

theorem shifts_metaMember :
    Portable k (fun f x => (x.1.move f, x.2.1.move f, x.2.2.move f))
      (metaMember fe.next value) :=
  shifts_bind (shifts_takeName _) fun _ => shifts_bind (shifts_take _ _) fun _ =>
    shifts_bind inner fun _ => shifts_pure (by rw [Surface.Meta.range_move]; rfl)

theorem shifts_metaMembers :
    Portable k (fun f x => (x.1.move f, Surface.moveMetaMembers f x.2))
      (metaMembers fe.next value) :=
  shifts_bind (shifts_take _ _) fun _ =>
    shifts_bind (shifts_looseList (shifts_metaMember inner) _ _) fun _ =>
      shifts_bind (shifts_take _ _) fun _ =>
        shifts_pure (by simp only [stop_shift, Surface.moveMetaMembers_eq]; rfl)

theorem shifts_metaArray : Portable k Surface.Meta.move (metaArray fe.next value) :=
  shifts_bind (shifts_take _ _) fun _ => shifts_bind (shifts_commaList inner _ _) fun _ =>
    shifts_bind (shifts_take _ _) fun _ =>
      shifts_pure (by rw [stop_shift, Surface.Meta.move, Surface.moveMetas_eq]; rfl)

end Meta

theorem shifts_signedNumber (sign : Surface.Sign) :
    Portable k Surface.Meta.move (signedNumber fe.next sign) :=
  shifts_bind (shifts_shift _) fun _ => shifts_bind (shifts_takeNumber _) fun _ =>
    shifts_pure (by rw [Surface.Meta.move]; rfl)

theorem shifts_metaUpTo (n : Nat) : Portable k Surface.Meta.move (metaUpTo fe.next n) := by
  induction n with
  | zero => exact shifts_reject
  | succ n ih =>
    refine shifts_seq shifts_peek fun _ => ?_
    split
    · exact shifts_single Surface.Meta.null _ fun _ => by rw [Surface.Meta.move]
    · exact shifts_single (Surface.Meta.boolean · true) _ fun _ => by rw [Surface.Meta.move]
    · exact shifts_single (Surface.Meta.boolean · false) _ fun _ => by rw [Surface.Meta.move]
    · exact shifts_signedNumber .minus
    · exact shifts_signedNumber .plus
    · exact shifts_bind (shifts_takeNumber _) fun _ =>
        shifts_pure (by rw [Surface.Meta.move]; rfl)
    · exact shifts_bind shifts_takeQuoted fun _ => shifts_pure (by rw [Surface.Meta.move])
    · exact shifts_metaArray ih
    · exact shifts_bind (shifts_metaMembers ih) fun _ =>
        shifts_pure (by rw [Surface.Meta.move])
    · exact shifts_reject

theorem shifts_metaSection (word : Keyword) (kind : MetaKind) :
    Portable k MetaSection.move (metaSection fe.next word kind) :=
  shifts_bind (shifts_take _ _) fun _ => shifts_seq shifts_remaining fun n =>
    shifts_bind (shifts_metaMembers (shifts_metaUpTo n)) fun _ => shifts_pure rfl

/-! ## Tasks -/

theorem shifts_runtimeEntry : Portable k RuntimeEntry.move (runtimeEntry fe.next) :=
  shifts_bind (shifts_takeName _) fun _ => shifts_bind (shifts_take _ _) fun _ =>
    shifts_bind shifts_expr fun _ => shifts_pure (by rw [Surface.Expr.range_move]; rfl)

theorem shifts_runtimeSection : Portable k TaskItem.move (runtimeSection fe.next) :=
  shifts_bind (shifts_take _ _) fun _ => shifts_bind (shifts_take _ _) fun _ =>
    shifts_bind (shifts_looseList shifts_runtimeEntry _ _) fun _ =>
      shifts_bind (shifts_take _ _) fun _ => shifts_pure (by rw [stop_shift]; rfl)

theorem shifts_commandParts (style : CommandStyle) (opener : Terminal) :
    Portable k (fun f => List.map (Surface.Part.move f)) (commandParts fe.next style opener) :=
  shifts_seq shifts_remaining fun _ =>
    shifts_partsUpTo (shifts_exprUpTo _) (shifts_operand _) _ _ _ _ _

theorem shifts_command : Portable k Surface.Command.move (command fe.next) := by
  have closed : ∀ (start : Token) (style : CommandStyle) (parts : List Surface.Part)
      (mark : Symbol), Shifts k (Surface.Command.move (· + k))
        (do return ⟨⟨start.start,
          (← takeSymbol fe.next mark Expect.afterCommand).stop⟩, style, parts⟩)
        (do return ⟨⟨(start.move (· + k)).start,
          (← takeSymbol fe.next mark Expect.afterCommand).stop⟩, style,
            parts.map (Surface.Part.move (· + k))⟩) := fun start style parts mark =>
    shifts_bind (shifts_take _ _) fun _ => shifts_pure (by
      rw [stop_shift, ← Surface.moveParts_eq]
      rfl)
  exact shifts_bind (shifts_take _ _) fun start => shifts_seq (shifts_sees _) fun _ => shifts_ite
    (shifts_bind (shifts_shift _) fun _ => shifts_bind (shifts_commandParts _ _) fun parts =>
      closed start .heredoc parts .heredocClose)
    (shifts_bind (shifts_take _ _) fun _ => shifts_bind (shifts_commandParts _ _) fun parts =>
      closed start .braces parts .braceClose)

theorem shifts_taskItem : Portable k TaskItem.move (taskItem fe.next) := by
  refine shifts_seq shifts_peek fun _ => ?_
  split
  · exact shifts_bind (shifts_declSection _) fun _ => shifts_pure rfl
  · exact shifts_bind (shifts_declSection _) fun _ => shifts_pure rfl
  · exact shifts_bind (shifts_metaSection _ _) fun _ => shifts_pure rfl
  · exact shifts_bind (shifts_metaSection _ _) fun _ => shifts_pure rfl
  · exact shifts_runtimeSection
  · exact shifts_bind shifts_boundDecl fun _ => shifts_pure rfl

theorem shifts_task : Portable k Surface.Task.move (task fe.next) :=
  shifts_bind (shifts_take _ _) fun _ => shifts_bind (shifts_takeName _) fun _ =>
    shifts_bind (shifts_take _ _) fun _ => shifts_bind (shifts_many shifts_taskItem _) fun _ =>
      shifts_bind shifts_command fun _ => shifts_bind (shifts_many shifts_taskItem _) fun _ =>
        shifts_bind (shifts_take _ _) fun _ => shifts_pure (by rw [stop_shift]; rfl)

/-! ## Workflows -/

theorem shifts_calleeUpTo (n : Nat) :
    Portable k (fun f => List.map (Word.move f)) (calleeUpTo fe.next n) := by
  induction n with
  | zero => exact shifts_pure rfl
  | succ n ih =>
    exact shifts_seq (shifts_optionalSymbol _ _) fun _ => shifts_ite
      (shifts_bind (shifts_takeName _) fun _ => shifts_bind ih fun _ => shifts_pure rfl)
      (shifts_pure rfl)

theorem shifts_callInput : Portable k CallInput.move (callInput fe.next) :=
  shifts_bind (shifts_takeName _) fun _ => shifts_seq (shifts_optionalSymbol _ _) fun _ =>
    shifts_ite
      (shifts_bind shifts_expr fun _ => shifts_pure (by rw [Surface.Expr.range_move]; rfl))
      (shifts_pure rfl)

/-- The inputs of a call end at a position that is handed on to the call, so it is shifted as well.
-/
theorem shifts_callInputs (stop : Nat) :
    Shifts k (fun x => (x.1.map (CallInput.move (· + k)), x.2 + k)) (callInputs fe.next stop)
      (callInputs fe.next (stop + k)) := by
  have written : Portable k (fun f x => (x.1.map (CallInput.move f), f x.2))
      (do
        let inputs ← commaList fe.next .braceClose Expect.entries (callInput fe.next)
        let close ← takeSymbol fe.next .braceClose Expect.workflowBody
        return (inputs, close.stop)) :=
    shifts_bind (shifts_commaList shifts_callInput _ _) fun _ =>
      shifts_bind (shifts_take _ _) fun _ => shifts_pure (by rw [stop_shift])
  refine shifts_seq (shifts_optionalSymbol _ _) fun _ => shifts_ite ?_ (shifts_pure rfl)
  -- the word before the inputs may be left out
  exact shifts_seq (shifts_sees _) fun _ => shifts_ite
    (shifts_bind (shifts_shift _) fun _ => shifts_bind (shifts_take _ _) fun _ => written) written

theorem shifts_callName :
    Portable k (fun f => Option.map (Word.move f)) (callName fe.next) :=
  shifts_seq (shifts_sees _) fun _ => shifts_ite
    (shifts_bind (shifts_shift _) fun _ => shifts_bind (shifts_takeName _) fun _ =>
      shifts_pure rfl)
    (shifts_pure rfl)

theorem shifts_call : Portable k Surface.Call.move (call fe.next) := by
  refine shifts_bind (shifts_take _ _) fun start => shifts_bind (shifts_takeName _) fun first =>
    shifts_seq shifts_remaining fun n => shifts_bind (shifts_calleeUpTo n) fun rest =>
      shifts_bind shifts_callName fun givenName => ?_
  -- without inputs a call ends with the last name that is written
  have named : (((givenName.map (Word.move (· + k))).getD
      ((rest.map (Word.move (· + k))).getLast?.getD (first.move (· + k)))).range).stop =
        ((givenName.getD (rest.getLast?.getD first)).range).stop + k := by
    rw [List.getLast?_map, Option.getD_map, Option.getD_map]
    rfl
  dsimp only
  rw [named]
  exact shifts_bind (shifts_callInputs _) fun _ => shifts_pure rfl

section Nested

variable {node : Parser Surface.WorkflowNode} (inner : Portable k Surface.WorkflowNode.move node)

include inner

theorem shifts_nestedBody :
    Portable k (fun f x => (Surface.moveBody f x.1, f x.2)) (nestedBody fe.next node) :=
  shifts_bind (shifts_take _ _) fun _ => shifts_bind (shifts_many inner _) fun _ =>
    shifts_bind (shifts_take _ _) fun _ =>
      shifts_pure (by simp only [stop_shift, Surface.moveBody_eq])

theorem shifts_scatter : Portable k Surface.WorkflowNode.move (scatter fe.next node) :=
  shifts_bind (shifts_take _ _) fun _ => shifts_bind (shifts_take _ _) fun _ =>
    shifts_bind (shifts_takeName _) fun _ => shifts_bind (shifts_take _ _) fun _ =>
      shifts_bind shifts_expr fun _ => shifts_bind (shifts_take _ _) fun _ =>
        shifts_bind (shifts_nestedBody inner) fun _ =>
          shifts_pure (by rw [Surface.WorkflowNode.move]; rfl)

theorem shifts_conditional : Portable k Surface.WorkflowNode.move (conditional fe.next node) :=
  shifts_bind (shifts_take _ _) fun _ => shifts_bind (shifts_take _ _) fun _ =>
    shifts_bind shifts_expr fun _ => shifts_bind (shifts_take _ _) fun _ =>
      shifts_bind (shifts_nestedBody inner) fun _ =>
        shifts_pure (by rw [Surface.WorkflowNode.move]; rfl)

end Nested

theorem shifts_nodeUpTo (n : Nat) :
    Portable k Surface.WorkflowNode.move (nodeUpTo fe.next n) := by
  induction n with
  | zero => exact shifts_reject
  | succ n ih =>
    refine shifts_seq shifts_peek fun _ => ?_
    split
    · exact shifts_bind shifts_call fun _ => shifts_pure (by rw [Surface.WorkflowNode.move])
    · exact shifts_scatter ih
    · exact shifts_conditional ih
    · exact shifts_bind shifts_boundDecl fun _ =>
        shifts_pure (by rw [Surface.WorkflowNode.move])

theorem shifts_workflowItem : Portable k WorkflowItem.move (workflowItem fe.next) := by
  refine shifts_seq shifts_peek fun _ => ?_
  split
  · exact shifts_bind (shifts_declSection _) fun _ => shifts_pure rfl
  · exact shifts_bind (shifts_declSection _) fun _ => shifts_pure rfl
  · exact shifts_bind (shifts_metaSection _ _) fun _ => shifts_pure rfl
  · exact shifts_bind (shifts_metaSection _ _) fun _ => shifts_pure rfl
  · exact shifts_seq shifts_remaining fun n => shifts_bind (shifts_nodeUpTo n) fun _ =>
      shifts_pure rfl

theorem shifts_workflow : Portable k Surface.Workflow.move (workflow fe.next) :=
  shifts_bind (shifts_take _ _) fun _ => shifts_bind (shifts_takeName _) fun _ =>
    shifts_bind (shifts_take _ _) fun _ =>
      shifts_bind (shifts_many shifts_workflowItem _) fun _ =>
        shifts_bind (shifts_take _ _) fun _ => shifts_pure (by rw [stop_shift]; rfl)

/-! ## Documents -/

theorem shifts_version : Portable k Surface.Element.move (version fe.next) :=
  shifts_bind (shifts_take _ _) fun _ => shifts_bind (shifts_take _ _) fun t =>
    shifts_pure (by rw [stop_shift, (keeps_shift k t Expect.elements).word_move]; rfl)

theorem shifts_importAlias : Portable k Alias.move (importAlias fe.next) :=
  shifts_bind (shifts_take _ _) fun _ => shifts_bind (shifts_takeName _) fun _ =>
    shifts_bind (shifts_take _ _) fun _ => shifts_bind (shifts_takeName _) fun _ =>
      shifts_pure rfl

theorem shifts_importName :
    Portable k (fun f => Option.map (Word.move f)) (importName fe.next) :=
  shifts_seq (shifts_sees _) fun _ => shifts_ite
    (shifts_bind (shifts_shift _) fun _ => shifts_bind (shifts_takeName _) fun _ =>
      shifts_pure rfl)
    (shifts_pure rfl)

theorem shifts_importDoc : Portable k Surface.Import.move (importDoc fe.next) := by
  refine shifts_bind (shifts_take _ _) fun start => shifts_bind shifts_takeQuoted fun uri =>
    shifts_bind shifts_importName fun name =>
      shifts_bind (shifts_many shifts_importAlias _) fun aliases => shifts_pure ?_
  have named : ((name.map (Word.move (· + k))).map Word.range).getD (uri.move (· + k)).range =
      ((name.map Word.range).getD uri.range).move (· + k) := by
    cases name <;> rfl
  have last : ∀ r : Range,
      ((aliases.map (Alias.move (· + k))).getLast?.map Alias.range).getD (r.move (· + k)) =
        ((aliases.getLast?.map Alias.range).getD r).move (· + k) := by
    intro r
    rw [List.getLast?_map]
    cases aliases.getLast? <;> rfl
  dsimp only
  rw [named, last]
  rfl

theorem shifts_structDef : Portable k Surface.StructDef.move (structDef fe.next) :=
  shifts_bind (shifts_take _ _) fun _ => shifts_bind (shifts_takeName _) fun _ =>
    shifts_bind (shifts_take _ _) fun _ => shifts_bind (shifts_many shifts_unboundDecl _) fun _ =>
      shifts_bind (shifts_take _ _) fun _ => shifts_pure (by rw [stop_shift]; rfl)

theorem shifts_element : Portable k Surface.Element.move (element fe.next) := by
  refine shifts_seq shifts_peek fun _ => ?_
  split
  · exact shifts_version
  · exact shifts_bind shifts_importDoc fun _ => shifts_pure rfl
  · exact shifts_bind shifts_structDef fun _ => shifts_pure rfl
  · exact shifts_bind shifts_task fun _ => shifts_pure rfl
  · exact shifts_bind shifts_workflow fun _ => shifts_pure rfl

/-- A document is read further on as it is read here. -/
theorem shifts_document : Portable k Surface.Document.move (document fe.next) :=
  shifts_bind (shifts_many shifts_element _) fun _ => shifts_pure rfl

end Rules

/-! ## Whole texts

A whole text starts at position 0 in either case. What is further on is its first token, and from
there on `Portable` applies. -/

/-- What parsing a whole text gives, changed by a map and further on. -/
def shiftWhole (k : Nat) (m : α → β) : Except Rejection α → Except Rejection β
  | .error r => .error (r.shift k)
  | .ok x => .ok (m x)

/-- Whole texts are parsed alike, if the first token of one is that of the other, further on. -/
theorem shifts_whole {k : Nat} {fe : FrontEnd} {m : (Nat → Nat) → α → α} {p : Parser α}
    (portable : Portable k m p) {start : Expect} {cs cs' : List Char}
    (first : fe.next start ⟨0, terminated cs'⟩ =
      shiftFound k (fe.next start ⟨0, terminated cs⟩)) :
    whole fe.next start p cs' = shiftWhole k (m (· + k)) (whole fe.next start p cs) := by
  unfold whole
  rw [first]
  cases fe.next start ⟨0, terminated cs⟩ with
  | error place => rfl
  | ok found =>
    obtain ⟨ahead, cursor⟩ := found
    have run := portable ⟨ahead, cursor, none⟩
    simp only [shiftFound, StateT.run]
    rw [show (⟨ahead.map (Token.move (· + k)), cursor.shift k, none⟩ : State) =
      State.shift k ⟨ahead, cursor, none⟩ from rfl, run]
    cases p ⟨ahead, cursor, none⟩ with
    | error r => rfl
    | ok result =>
      obtain ⟨x, s⟩ := result
      obtain ⟨_ | token, c, last⟩ := s <;> rfl

end Parser

end Wdl
