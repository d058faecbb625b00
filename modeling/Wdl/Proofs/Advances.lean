import Wdl.Proofs.Foundations
import Wdl.Proofs.Offsets

/-!
# Wdl.Proofs.Advances -- where a parser goes, and where it gives up

Started right behind a position of a text, a parser goes forwards, and what it returns lies between
that position and the one it ends at. If it gives up, then at a place of the text: the token ahead,
the last token taken, or a character where no token starts. One lemma for each way to put parsers
together and one for each rule carry this through the grammar of expressions. What is built from an
expression complains of nothing outside of it.

* `Rejection.On cs r` says that a rejection is of something in the text `cs`.
* `State.Standing fe cs b s`: the state `s` is on the way through `cs`, and the last token it took
  ends at `b`.
* `Advances fe cs b p Q` is the specification of a parser: from a state that stands behind `b` it
  reaches one that stands behind some `c` with `Q c x` for what it returns, or its rejection is `On`
  the text.
* `advances_bind`, `advances_look`, `advances_many`, `advances_commaList` and `advances_looseList`
  are the rules for what parsers are put together with; `advances_shift` is the one step that takes
  a token.
* `Contained cs range check a b x` relates a surface form to where it was read, in two ways: its
  range lies between `a` and `b`, and its check is `Traced` up to `b`. `ExprUpto` is this for
  expressions.
* `advances_expr` is the result for expressions, by induction on how deep they may nest
  (`advances_upTo`).
-/

namespace Wdl

variable {α β σ τ : Type} {fe : FrontEnd} {cs : List Char} {rules : Rules} {a b : Nat}

/-! ## Places -/

theorem Cursor.On.advance {c : Cursor} {n : Nat} (on : c.On cs) (le : n ≤ c.rest.length) :
    (c.advance n).On cs := by
  obtain ⟨inside, eq⟩ := on
  rw [eq, List.length_drop] at le
  refine ⟨?_, ?_⟩
  · show c.pos + n ≤ cs.length
    omega
  · rw [Cursor.advance, eq, List.drop_drop]

/-- The place where no token was found is behind the layout, and not at the end of the text. -/
theorem next_error_on {A : Expect} {c place : Cursor} (h : fe.next A c = .error place)
    (on : c.On cs) : place.On cs ∧ place.rest ≠ [] := by
  unfold FrontEnd.next at h
  split at h
  · cases h
  · dsimp only at h
    split at h
    · cases h
    · rename_i left
      split at h
      · cases h
      · cases h
        exact ⟨on.advance (Scan.layoutLength_le _ _), by simpa using left⟩

/-- A rejection is of something in the text. -/
def Rejection.On (cs : List Char) : Rejection → Prop
  | .unexpected token => token.On cs
  | .unfinished last => ∀ r ∈ last, r.Between 0 cs.length
  | .stray place => place.On cs ∧ place.rest ≠ []

/-- A surface form lies between two positions, and what its check complains of does not lie
behind it. -/
def Contained (cs : List Char) (range : σ → Range) (check : σ → Checked τ) (a b : Nat) (x : σ) :
    Prop :=
  (range x).Between a b ∧ Build.Traced cs b (check x)

/-- What holds between two positions holds between any two around them. -/
def Wide (P : Nat → Nat → α → Prop) : Prop :=
  ∀ ⦃a b c d : Nat⦄ ⦃x : α⦄, P b c x → a ≤ b → c ≤ d → P a d x

theorem wide_contained (range : σ → Range) (check : σ → Checked τ) :
    Wide (Contained cs range check) :=
  fun _ _ _ _ _ h ab cd => ⟨h.1.widen ab cd, h.2.widen cd⟩

/-- A sequence of ranges lies between two positions if each of them does. -/
theorem Surface.rangeThrough_between {r : Range} {rs : List Range} {c : Nat}
    (first : r.Between a b) (rest : ∀ q ∈ rs, q.Between b c) (bc : b ≤ c) :
    (rangeThrough r rs).Between a c := by
  unfold rangeThrough
  cases last : rs.getLast? with
  | none => exact first.widen (Nat.le_refl a) bc
  | some q => exact first.join (rest q (List.mem_of_getLast? last)) (Nat.le_refl b)

namespace Parser

/-! ## States and parsers

The specification speaks of the position where the last token ended, not of the cursor: layout ahead
of the next token belongs to no surface form. -/

/-- The state stands in the text, right behind position `b`, where the last token taken ends. -/
structure State.Standing (fe : FrontEnd) (cs : List Char) (b : Nat) (s : State) : Prop where
  sound : s.Sound fe cs
  last : ∀ r ∈ s.last, r.Between 0 cs.length
  back : s.back = b

/-- Started right behind position `b`, a parser goes forwards and returns something that is related
to the position where it ends, or it gives up somewhere in the text. -/
def Advances (fe : FrontEnd) (cs : List Char) (b : Nat) (p : Parser α) (Q : Nat → α → Prop) :
    Prop :=
  ∀ s : State, s.Standing fe cs b →
    match p s with
    | .ok (x, s') => ∃ c, b ≤ c ∧ s'.Standing fe cs c ∧ Q c x
    | .error r => r.On cs

/-- A parser that looks ahead and takes nothing. -/
def Looks (p : Parser α) : Prop := ∀ s, ∃ x, p s = .ok (x, s)

theorem looks_peek : Looks peek := fun s => ⟨s.kind?, rfl⟩

theorem looks_sees (k : Terminal) : Looks (sees k) := fun s => ⟨s.kind? == some k, rfl⟩

theorem looks_remaining : Looks remaining := fun s => ⟨s.cursor.rest.length + 1, rfl⟩

section Combinators

variable {p : Parser α} {P : Nat → α → Prop} {Q : Nat → β → Prop}

/-- One parser behind another. The second starts where the first one ends, which is somewhere behind
`b`; what it has to show may depend on that place and on what the first one returned. -/
theorem advances_bind {f : α → Parser β} (first : Advances fe cs b p P)
    (rest : ∀ x c, b ≤ c → P c x → Advances fe cs c (f x) Q) :
    Advances fe cs b (p >>= f) Q := by
  intro s standing
  have first := first s standing
  -- a parser is started on a state, so that what is bound is a step of `Except`
  show match p s >>= fun x => f x.1 x.2 with
    | .ok (y, s') => ∃ d, b ≤ d ∧ s'.Standing fe cs d ∧ Q d y
    | .error r => r.On cs
  cases result : p s with
  | error r =>
    rw [result] at first
    exact first
  | ok x =>
    obtain ⟨x, t⟩ := x
    rw [result] at first
    obtain ⟨c, bc, standing', hx⟩ := first
    have rest := rest x c bc hx t standing'
    show match f x t with
      | .ok (y, s') => ∃ d, b ≤ d ∧ s'.Standing fe cs d ∧ Q d y
      | .error r => r.On cs
    cases result' : f x t with
    | error r =>
      rw [result'] at rest
      exact rest
    | ok y =>
      rw [result'] at rest
      obtain ⟨d, cd, standing'', hy⟩ := rest
      exact ⟨d, Nat.le_trans bc cd, standing'', hy⟩

/-- Whatever is seen ahead, nothing has been taken. -/
theorem advances_look {f : α → Parser β} (looks : Looks p)
    (rest : ∀ x, Advances fe cs b (f x) Q) : Advances fe cs b (p >>= f) Q := by
  intro s standing
  obtain ⟨x, seen⟩ := looks s
  show match p s >>= fun x => f x.1 x.2 with
    | .ok (y, s') => ∃ d, b ≤ d ∧ s'.Standing fe cs d ∧ Q d y
    | .error r => r.On cs
  rw [seen]
  exact rest x s standing

theorem advances_pure {x : α} (h : P b x) : Advances fe cs b (pure x) P :=
  fun _ standing => ⟨b, Nat.le_refl b, standing, h⟩

theorem advances_ite {c : Prop} [Decidable c] {p q : Parser α} (yes : Advances fe cs b p P)
    (no : Advances fe cs b q P) : Advances fe cs b (if c then p else q) P := by
  split
  · exact yes
  · exact no

theorem advances_reject : Advances fe cs b (reject : Parser α) P := by
  rintro ⟨_ | t, cursor, last⟩ standing
  · exact standing.last
  · exact (standing.sound.ahead rfl).1

/-- A token is the only thing that moves a parser on: it lies behind the last one. -/
theorem advances_shift {after : Expect} :
    Advances fe cs b (shift fe.next after) fun c t => t.range.Between b c := by
  rintro ⟨_ | t, cursor, last⟩ standing
  · exact standing.last
  · rw [shift_some]
    obtain ⟨on, stop⟩ := standing.sound.ahead rfl
    cases found : fe.next after cursor with
    | error place => exact next_error_on found standing.sound.cursor
    | ok next =>
      obtain ⟨ahead, cursor'⟩ := next
      have run : Run fe.next ⟨some t, cursor, last⟩ [⟨t, after⟩] ⟨ahead, cursor', some t.range⟩ :=
        .cons rfl found (.nil _)
      have sound := (Run.sound standing.sound run).1
      have start : b ≤ t.start := standing.back ▸ standing.sound.ordered
      have pos := on.pos
      -- the token that was ahead is the last one now, and the state stands right behind it
      refine ⟨t.stop, by omega, ⟨sound, ?_, rfl⟩, ⟨start, Nat.le_of_lt pos, Nat.le_refl _⟩⟩
      rintro r ⟨⟩
      exact ⟨Nat.zero_le _, Nat.le_of_lt pos, on.le⟩

theorem advances_take {k : Terminal} {after : Expect} :
    Advances fe cs b (take fe.next k after) fun c t => t.range.Between b c :=
  advances_look (looks_sees k) fun _ => advances_ite advances_shift advances_reject

theorem advances_optionalSymbol {k : Symbol} {after : Expect} :
    Advances fe cs b (optionalSymbol fe.next k after) fun _ _ => True :=
  advances_look (looks_sees _) fun _ => advances_ite
    (advances_bind advances_shift fun _ _ _ _ => advances_pure trivial) (advances_pure trivial)

theorem advances_takeName {after : Expect} :
    Advances fe cs b (takeName fe.next after) fun c w => w.range.Between b c :=
  advances_bind advances_take fun _ _ _ ht => advances_pure ht

theorem advances_takeQuoted :
    Advances fe cs b (takeQuoted fe.next) fun c q => q.range.Between b c := by
  refine advances_look looks_peek fun _ => ?_
  split
  · exact advances_bind advances_shift fun _ _ _ ht => advances_pure ht
  · exact advances_reject

/-- What a parser returns may be known from the steps that it took. -/
theorem Advances.and {R : α → Prop} (h : Advances fe cs b p P)
    (known : ∀ s s' x, s.Sound fe cs → p s = .ok (x, s') → R x) :
    Advances fe cs b p fun c x => P c x ∧ R x := by
  intro s standing
  have here := h s standing
  cases result : p s with
  | error r =>
    rw [result] at here
    exact here
  | ok x =>
    rw [result] at here
    obtain ⟨c, bc, standing', hx⟩ := here
    exact ⟨c, bc, standing', hx, known s x.2 x.1 standing.sound result⟩

theorem advances_takeNumber {after : Expect} :
    Advances fe cs b (takeNumber fe.next after) fun c x =>
      x.range.Between b c ∧ Build.Grounded cs x := by
  refine Advances.and (advances_look looks_peek fun _ => ?_) ?_
  · split
    · exact advances_bind advances_shift fun _ _ _ ht => advances_pure ht
    · exact advances_reject
  · intro s s' x sound h decimal
    obtain ⟨t, kind, number, rfl, run⟩ := takeNumber_eq_ok.1 h
    exact Run.hasDigits sound run (number.trans (congrArg _ decimal))

end Combinators

/-! ## Lists

Items of a list are found one behind the other, and the place of each is known between the end of
the one in front and its own. For the list as a whole that is said of all items between its start
and its end, which asks that `P` be `Wide`. -/

section Lists

variable {item : Parser α} {P : Nat → Nat → α → Prop} (wide : Wide P)
  (each : ∀ b, Advances fe cs b item (P b))

include wide each

/-- One more item in front, perhaps behind a comma. -/
theorem advances_cons {more : Parser (List α)} {c : Nat} (bc : b ≤ c)
    (rest : ∀ c, Advances fe cs c more fun d xs => ∀ x ∈ xs, P c d x) :
    Advances fe cs c (do let x ← item; let xs ← more; return x :: xs)
      fun d xs => ∀ x ∈ xs, P b d x :=
  advances_bind (each c) fun _ d cd hx => advances_bind (rest d) fun _ _ de hxs =>
    advances_pure (List.forall_mem_cons.2
      ⟨wide hx bc de, fun y hy => wide (hxs y hy) (Nat.le_trans bc cd) (Nat.le_refl _)⟩)

theorem advances_many {starts : Terminal → Bool} :
    Advances fe cs b (many starts item) fun c xs => ∀ x ∈ xs, P b c x := by
  refine advances_look looks_remaining fun n => ?_
  induction n generalizing b with
  | zero => exact advances_pure (by simp)
  | succ n ih =>
    exact advances_look looks_peek fun _ => advances_ite
      (advances_cons wide each (Nat.le_refl b) fun _ => ih) (advances_pure (by simp))

/-- Items up to a closing symbol: none, or a first one and more. -/
theorem advances_items {close : Symbol} {more : Nat → Parser (List α)}
    (rest : ∀ n c, Advances fe cs c (more n) fun d xs => ∀ x ∈ xs, P c d x) :
    Advances fe cs b (do
      if ← sees (.symbol close) then return []
      else
        let x ← item
        let xs ← more (← remaining)
        return x :: xs) fun c xs => ∀ x ∈ xs, P b c x :=
  advances_look (looks_sees _) fun _ => advances_ite (advances_pure (by simp))
    (advances_bind (each b) fun _ c bc hx => advances_look looks_remaining fun n =>
      advances_bind (rest n c) fun _ _ cd hxs => advances_pure (List.forall_mem_cons.2
        ⟨wide hx (Nat.le_refl b) cd, fun y hy => wide (hxs y hy) bc (Nat.le_refl _)⟩))

theorem advances_commaList {close : Symbol} {after : Expect} :
    Advances fe cs b (commaList fe.next close after item) fun c xs => ∀ x ∈ xs, P b c x := by
  have more : ∀ n b, Advances fe cs b (moreUpTo fe.next close after item n)
      fun c xs => ∀ x ∈ xs, P b c x := by
    intro n
    induction n with
    | zero => exact fun b => advances_pure (by simp)
    | succ n ih =>
      exact fun b => advances_bind advances_optionalSymbol fun _ _ bc _ => advances_ite
        (advances_look (looks_sees _) fun _ => advances_ite (advances_pure (by simp))
          (advances_cons wide each bc ih))
        (advances_pure (by simp))
  exact advances_items wide each more

theorem advances_looseList {close : Symbol} {after : Expect} :
    Advances fe cs b (looseList fe.next close after item) fun c xs => ∀ x ∈ xs, P b c x := by
  have more : ∀ n b, Advances fe cs b (looseUpTo fe.next close after item n)
      fun c xs => ∀ x ∈ xs, P b c x := by
    intro n
    induction n with
    | zero => exact fun b => advances_pure (by simp)
    | succ n ih =>
      exact fun b => advances_bind advances_optionalSymbol fun _ _ bc _ => advances_ite
        (advances_look (looks_sees _) fun _ => advances_ite (advances_pure (by simp))
          (advances_cons wide each bc ih))
        (advances_look (looks_sees _) fun _ => advances_ite (advances_cons wide each bc ih)
          (advances_pure (by simp)))
  exact advances_items wide each more

end Lists

/-! ## Expressions

From here on `p` parses the expressions inside a rule, and is assumed to advance with `ExprUpto`, as
is `operand` for operands. The assumption is discharged at the end, where both are the parsers for a
bound on the nesting. -/

open Build

/-- An expression lies between two positions, and so does what is wrong with it. -/
abbrev ExprUpto (cs : List Char) (rules : Rules) : Nat → Nat → Surface.Expr → Prop :=
  Contained cs Surface.Expr.range (Build.expr rules)

section Rules

variable {p operand : Parser Surface.Expr} (inner : ∀ b, Advances fe cs b p (ExprUpto cs rules b))

include inner

theorem advances_accessor :
    Advances fe cs b (accessor fe.next p) fun c x =>
      x.range.Between b c ∧ TracedAccessor cs rules c x := by
  refine advances_look (looks_sees _) fun _ => advances_ite ?member ?index
  case member =>
    exact advances_bind advances_shift fun dot c bc hdot =>
      advances_bind advances_takeName fun name d cd hname =>
        advances_pure ⟨hdot.join hname (Nat.le_refl c), hname.upto (Nat.le_refl d)⟩
  case index =>
    exact advances_bind advances_take fun bracket c bc hbracket =>
      advances_bind (inner c) fun index d cd hindex =>
        advances_bind advances_take fun close e de hclose =>
          advances_pure ⟨hbracket.join hclose cd, hindex.2.widen de⟩

/-- Accessors behind a subject extend its range and bring checks of their own. -/
theorem advances_accessed {subject : Surface.Expr} (here : ExprUpto cs rules a b subject) :
    Advances fe cs b (accessed fe.next p subject) (ExprUpto cs rules a) := by
  have wide : Wide fun b c (x : Surface.Accessor) =>
      x.range.Between b c ∧ TracedAccessor cs rules c x :=
    fun _ _ _ _ _ h ab cd => ⟨h.1.widen ab cd, h.2.widen cd⟩
  refine advances_bind (advances_many wide fun _ => advances_accessor inner) fun as c bc has => ?_
  split
  · exact advances_pure (wide_contained _ _ here (Nat.le_refl a) bc)
  · refine advances_pure ⟨Surface.rangeThrough_between here.1 ?_ bc, ?_⟩
    · exact List.forall_mem_map.2 fun x hx => (has x hx).1
    · exact traced_bind (here.2.widen bc) fun _ _ =>
        traced_bind (traced_accesses fun x hx => (has x hx).2) fun _ _ => traced_ok _

theorem advances_structMember :
    Advances fe cs b (structMember fe.next p) fun c m => TracedMember cs rules c m := by
  refine advances_look (looks_sees _) fun _ => advances_ite ?word ?quoted
  case word =>
    exact advances_bind advances_takeName fun name c _ hname =>
      advances_bind advances_take fun _ d cd _ => advances_bind (inner d) fun _ e de hvalue =>
        advances_pure ⟨hname.upto (Nat.le_trans cd de), hvalue.2⟩
  case quoted =>
    exact advances_bind advances_takeQuoted fun key c _ hkey =>
      advances_bind advances_take fun _ d cd _ => advances_bind (inner d) fun _ e de hvalue =>
        advances_pure ⟨hkey.upto (Nat.le_trans cd de), hvalue.2⟩

/-- What follows a name decides what it is: a call, a struct, or the name itself. -/
theorem advances_afterName {name : Surface.Word} (here : name.range.Between a b) :
    Advances fe cs b (afterName fe.next p name) (ExprUpto cs rules a) := by
  refine advances_look (looks_sees _) fun _ => advances_ite ?apply
    (advances_look (looks_sees _) fun _ => advances_ite ?struct ?name)
  case apply =>
    refine advances_bind advances_shift fun _ c bc _ =>
      advances_bind (advances_commaList (wide_contained _ _) inner) fun args d cd hargs =>
        advances_bind advances_take fun close e de hclose => advances_pure ?_
    exact ⟨here.join hclose (Nat.le_trans bc cd),
      traced_bind (traced_exprs fun x hx => (hargs x hx).2.widen de) fun _ _ => traced_ok _⟩
  case struct =>
    -- a member has no range of its own; only the position where it ends is known
    have wide : Wide fun _ c (m : Surface.Key × Surface.Expr) => TracedMember cs rules c m :=
      fun _ _ _ _ _ h _ cd => ⟨h.1.upto cd, h.2.widen cd⟩
    refine advances_bind advances_shift fun _ c bc _ =>
      advances_bind (advances_commaList wide fun _ => advances_structMember inner)
        fun ms d cd hms => advances_bind advances_take fun close e de hclose => advances_pure ?_
    refine ⟨here.join hclose (Nat.le_trans bc cd), traced_bind (traced_members fun m hm =>
      wide (hms m hm) (Nat.le_refl c) de) fun _ _ => traced_bind (traced_structName rules ?_)
        fun _ _ => traced_ok _⟩
    exact here.upto (by omega)
  case name =>
    exact advances_pure ⟨here, traced_bind (traced_checkName rules (here.upto (Nat.le_refl b)))
      fun _ _ => traced_ok _⟩

theorem advances_array : Advances fe cs b (array fe.next p) (ExprUpto cs rules b) :=
  advances_bind advances_take fun _ _ _ hbracket =>
    advances_bind (advances_commaList (wide_contained _ _) inner) fun _ _ cd hitems =>
      advances_bind advances_take fun _ _ de hclose => advances_pure
        ⟨hbracket.join hclose cd,
          traced_bind (traced_exprs fun x hx => (hitems x hx).2.widen de) fun _ _ => traced_ok _⟩

theorem advances_parenthesized :
    Advances fe cs b (parenthesized fe.next p) (ExprUpto cs rules b) := by
  refine advances_bind advances_take fun paren c _ hparen => advances_bind (inner c)
    fun left d cd hleft => advances_bind advances_optionalSymbol fun _ e de _ =>
      advances_ite ?pair ?group
  case pair =>
    refine advances_bind (inner e) fun right f ef hright =>
      advances_bind advances_take fun close g fg hclose => advances_pure ?_
    exact ⟨hparen.join hclose (by omega), traced_bind (hleft.2.widen (by omega)) fun _ _ =>
      traced_bind (hright.2.widen fg) fun _ _ => traced_ok _⟩
  case group =>
    refine advances_bind advances_take fun close f ef hclose => advances_pure ?_
    exact ⟨hparen.join hclose (by omega), traced_bind (hleft.2.widen (by omega)) fun _ _ =>
      traced_ok _⟩

theorem advances_mapItem :
    Advances fe cs b (mapItem fe.next p) fun c i => TracedItem cs rules c i :=
  advances_bind (inner b) fun _ _ _ hkey => advances_bind advances_take fun _ d cd _ =>
    advances_bind (inner d) fun _ _ de hvalue =>
      advances_pure ⟨hkey.2.widen (Nat.le_trans cd de), hvalue.2⟩

theorem advances_map : Advances fe cs b (map fe.next p) (ExprUpto cs rules b) := by
  have wide : Wide fun _ c (i : Surface.Expr × Surface.Expr) => TracedItem cs rules c i :=
    fun _ _ _ _ _ h _ cd => ⟨h.1.widen cd, h.2.widen cd⟩
  exact advances_bind advances_take fun brace c _ hbrace =>
    advances_bind (advances_commaList wide fun _ => advances_mapItem inner)
      fun items d cd hitems => advances_bind advances_take fun close e de hclose => advances_pure
        ⟨hbrace.join hclose cd, traced_bind
          (traced_pairs fun i hi => wide (hitems i hi) (Nat.le_refl c) de) fun _ _ => traced_ok _⟩

theorem advances_choice : Advances fe cs b (choice fe.next p) (ExprUpto cs rules b) := by
  refine advances_bind advances_take fun start c _ hstart =>
    advances_bind (inner c) fun condition d cd hcondition =>
      advances_bind advances_take fun _ e de _ =>
        advances_bind (inner e) fun consequent f ef hconsequent =>
          advances_bind advances_take fun _ g fg _ =>
            advances_bind (inner g) fun alternative h gh halternative => advances_pure ?_
  exact ⟨hstart.join halternative.1 (by omega),
    traced_bind (hcondition.2.widen (by omega)) fun _ _ =>
      traced_bind (hconsequent.2.widen (by omega)) fun _ _ =>
        traced_bind halternative.2 fun _ _ => traced_ok _⟩

end Rules

/-! ## Chains and signs -/

section Operands

variable {p operand : Parser Surface.Expr} (inner : ∀ b, Advances fe cs b p (ExprUpto cs rules b))
  (single : ∀ b, Advances fe cs b operand (ExprUpto cs rules b))

theorem advances_signsUpTo (n : Nat) :
    Advances fe cs b (signsUpTo fe.next n) fun c signs => ∀ x ∈ signs, x.2.Between b c := by
  induction n generalizing b with
  | zero => exact advances_pure (by simp)
  | succ n ih =>
    refine advances_look looks_peek fun _ => ?_
    split
    · exact advances_bind advances_shift fun sign c bc hsign =>
        advances_bind ih fun signs d cd hsigns => advances_pure (List.forall_mem_cons.2
          ⟨hsign.widen (Nat.le_refl b) cd, fun x hx => (hsigns x hx).widen bc (Nat.le_refl d)⟩)
    · exact advances_pure (by simp)

include single in
theorem advances_chainUpTo (n : Nat) :
    Advances fe cs b (chainUpTo fe.next operand n) fun c links =>
      ∀ x ∈ links, ExprUpto cs rules b c x.2 := by
  induction n generalizing b with
  | zero => exact advances_pure (by simp)
  | succ n ih =>
    refine advances_look looks_peek fun _ => ?_
    split
    · refine advances_bind advances_shift fun _ c bc _ => advances_bind (single c)
        fun right d cd hright => advances_bind ih fun links e de hlinks => advances_pure ?_
      have wide : Wide (ExprUpto cs rules) := wide_contained _ _
      exact List.forall_mem_cons.2 ⟨wide hright bc de,
        fun x hx => wide (hlinks x hx) (Nat.le_trans bc cd) (Nat.le_refl e)⟩
    · exact advances_pure (by simp)

include single in
theorem advances_chainFrom {first : Surface.Expr} (here : ExprUpto cs rules a b first) :
    Advances fe cs b (chainFrom fe.next operand first) (ExprUpto cs rules a) := by
  refine advances_look looks_remaining fun n => advances_bind (advances_chainUpTo single n)
    fun links c bc hlinks => ?_
  split
  · -- a single operand is no chain
    exact advances_pure (wide_contained _ _ here (Nat.le_refl a) bc)
  · refine advances_pure ⟨?_, ?_⟩
    · rw [Surface.Expr.range, Surface.operandRanges_eq]
      exact Surface.rangeThrough_between here.1
        (List.forall_mem_map.2 fun x hx => (hlinks x hx).1) bc
    · exact traced_bind (here.2.widen bc) fun _ _ =>
        traced_bind (traced_operands fun x hx => (hlinks x hx).2) fun _ _ => traced_ok _

/-! ## Placeholders and strings -/

theorem advances_optionValue (N : CharacterNames) :
    Advances fe cs b (optionValue fe.next) fun c v =>
      b ≤ optionStop v ∧ optionStop v ≤ c ∧ Traced cs c (optionText N v) := by
  refine advances_look looks_peek fun _ => ?_
  split
  · exact advances_bind advances_takeQuoted fun q c _ hq => advances_pure
      ⟨Nat.le_trans hq.start hq.ordered, hq.stop,
        traced_decodeText N (hq.upto (Nat.le_refl c)) _⟩
  · exact advances_bind advances_takeNumber fun x c _ hx => advances_pure
      ⟨Nat.le_trans hx.1.start hx.1.ordered, hx.1.stop,
        traced_bind (traced_numberValue (hx.1.upto (Nat.le_refl c)) hx.2) fun _ _ => traced_ok _⟩

theorem advances_placeholderOption (rules : Rules) {name : Surface.Word}
    (here : name.range.Between a b) :
    Advances fe cs b (placeholderOption fe.next name) fun c o => TracedOption cs rules c o := by
  refine advances_bind advances_take fun _ c bc _ =>
    advances_bind (advances_optionValue rules.names) fun value d cd hvalue => advances_pure ?_
  obtain ⟨start, stop, traced⟩ := hvalue
  refine ⟨⟨Nat.zero_le _, ?_, stop⟩, traced⟩
  show name.range.start ≤ optionStop value
  have ordered := here.ordered
  have inside := here.stop
  omega

include inner single in
/-- A placeholder is a run of options and one expression. A name in front may be an option's or the
expression's, which is known only from what follows it. -/
theorem advances_placeholderUpTo (n : Nat) :
    Advances fe cs b (placeholderUpTo fe.next p operand n) fun c x =>
      (∀ o ∈ x.1, TracedOption cs rules c o) ∧ ExprUpto cs rules b c x.2 := by
  induction n generalizing b with
  | zero => exact advances_reject
  | succ n ih =>
    -- what a first operand starts, and what an option is followed by
    have finish : ∀ {c first}, b ≤ c → ExprUpto cs rules b c first →
        Advances fe cs c (do return ([], ← chainFrom fe.next operand
          (← accessed fe.next p first))) fun d x =>
            (∀ o ∈ x.1, TracedOption cs rules d o) ∧ ExprUpto cs rules b d x.2 :=
      fun _ hfirst => advances_bind (advances_accessed inner hfirst) fun _ _ _ hsubject =>
        advances_bind (advances_chainFrom single hsubject) fun _ _ _ he =>
          advances_pure ⟨by simp, he⟩
    have continued : ∀ {c name}, b ≤ c → name.range.Between b c →
        Advances fe cs c (do
          let option ← placeholderOption fe.next name
          let options ← placeholderUpTo fe.next p operand n
          return (option :: options.1, options.2)) fun d x =>
            (∀ o ∈ x.1, TracedOption cs rules d o) ∧ ExprUpto cs rules b d x.2 :=
      fun bc hname => advances_bind (advances_placeholderOption rules hname) fun _ _ cd ho =>
        advances_bind ih fun _ _ de hx => advances_pure
          ⟨List.forall_mem_cons.2 ⟨ho.widen de, hx.1⟩,
            wide_contained _ _ hx.2 (Nat.le_trans bc cd) (Nat.le_refl _)⟩
    refine advances_look looks_peek fun _ => ?_
    split
    · exact advances_bind advances_takeName fun name c bc hname =>
        advances_look (looks_sees _) fun _ => advances_ite (continued bc hname)
          (advances_bind (advances_afterName inner hname) fun _ d cd he =>
            finish (Nat.le_trans bc cd) he)
    · exact advances_bind advances_shift fun token c bc htoken =>
        advances_look (looks_sees _) fun _ => advances_ite (continued bc htoken)
          (finish bc ⟨htoken, traced_ok _⟩)
    · exact advances_bind advances_shift fun token c bc htoken =>
        advances_look (looks_sees _) fun _ => advances_ite (continued bc htoken)
          (finish bc ⟨htoken, traced_ok _⟩)
    · exact advances_bind (inner b) fun e c _ he => advances_pure ⟨by simp, he⟩

include inner single in
theorem advances_placeholder :
    Advances fe cs b (placeholder fe.next p operand) fun c x =>
      Traced cs c (Build.placeholder rules x) :=
  advances_look looks_remaining fun n =>
    advances_bind (advances_placeholderUpTo inner single n) fun _ _ _ hx =>
      advances_pure (traced_placeholder hx.1 hx.2.2)

include inner single in
theorem advances_partsUpTo {text opener : Terminal} {afterText inside : Expect} (n : Nat) :
    Advances fe cs b (partsUpTo fe.next p operand text opener afterText inside n) fun c ps =>
      ∀ x ∈ ps, TracedPart cs rules c x := by
  induction n generalizing b with
  | zero => exact advances_pure (by simp)
  | succ n ih =>
    refine advances_look (looks_sees _) fun _ => advances_ite ?text
      (advances_look (looks_sees _) fun _ => advances_ite ?hole (advances_pure (by simp)))
    case text =>
      exact advances_bind advances_shift fun token c _ htoken => advances_bind ih
        fun ps d cd hps => advances_pure (List.forall_mem_cons.2 ⟨htoken.upto cd, hps⟩)
    case hole =>
      exact advances_bind advances_shift fun _ c _ _ =>
        advances_bind (advances_placeholder inner single) fun x d _ hx =>
          advances_bind advances_take fun _ e de _ => advances_bind ih fun ps f ef hps =>
            advances_pure (List.forall_mem_cons.2 ⟨hx.widen (Nat.le_trans de ef), hps⟩)

include inner single in
theorem advances_string (q : Quote) :
    Advances fe cs b (string fe.next p operand q) (ExprUpto cs rules b) :=
  advances_bind advances_take fun _ _ _ hstart => advances_look looks_remaining fun n =>
    advances_bind (advances_partsUpTo inner single n) fun _ _ cd hps =>
      advances_bind advances_take fun _ _ de hclose => advances_pure
        ⟨hstart.join hclose cd, traced_string fun x hx => (hps x hx).widen de⟩

/-! ## Operands and expressions -/

/-- A literal that cannot be wrong is a token. -/
theorem advances_literal {after : Expect} (make : Range → Surface.Expr)
    (range : ∀ r, (make r).range = r) (right : ∀ n r, Traced cs n (Build.expr rules (make r))) :
    Advances fe cs b (do return make (← shift fe.next after).range) (ExprUpto cs rules b) :=
  advances_bind advances_shift fun t c _ ht => advances_pure
    ⟨(range t.range).symm ▸ ht, right c t.range⟩

include inner single in
theorem advances_primary :
    Advances fe cs b (primary fe.next p operand) (ExprUpto cs rules b) := by
  refine advances_look looks_peek fun _ => ?_
  split
  · exact advances_literal (.boolean · true) (fun _ => rfl) fun _ _ => traced_ok _
  · exact advances_literal (.boolean · false) (fun _ => rfl) fun _ _ => traced_ok _
  · exact advances_literal .null (fun _ => rfl) fun _ _ => traced_ok _
  · exact advances_bind advances_takeNumber fun x c _ hx => advances_pure ⟨hx.1,
      traced_bind (traced_numberValue (hx.1.upto (Nat.le_refl c)) hx.2) fun _ _ => traced_ok _⟩
  · exact advances_string inner single _
  · exact advances_array inner
  · exact advances_parenthesized inner
  · exact advances_map inner
  · exact advances_choice inner
  · exact advances_bind advances_takeName fun _ _ _ hname => advances_afterName inner hname
  · exact advances_reject

include inner single in
theorem advances_operandWith :
    Advances fe cs b (operandWith fe.next p operand) (ExprUpto cs rules b) := by
  refine advances_look looks_remaining fun n => advances_bind (advances_signsUpTo n)
    fun signs c bc hsigns => advances_bind (advances_primary inner single) fun first d cd hfirst =>
      advances_bind (advances_accessed inner hfirst) fun subject e de hsubject => ?_
  cases signs with
  | nil => exact advances_pure (wide_contained _ _ hsubject bc (Nat.le_refl e))
  | cons sign signs =>
    -- the operand starts with the first of its signs
    have start := hsigns sign List.mem_cons_self
    exact advances_pure ⟨start.join hsubject.1 (Nat.le_refl c),
      traced_bind hsubject.2 fun _ _ => traced_ok _⟩

end Operands

/-- Operands and expressions that nest at most so deep. -/
theorem advances_upTo (n : Nat) :
    (∀ b, Advances fe cs b (operand fe.next n) (ExprUpto cs rules b)) ∧
      ∀ b, Advances fe cs b (exprUpTo fe.next n) (ExprUpto cs rules b) := by
  induction n with
  | zero => exact ⟨fun _ => advances_reject, fun _ => advances_reject⟩
  | succ n ih =>
    obtain ⟨single, inner⟩ := ih
    exact ⟨fun b => advances_operandWith inner single, fun b =>
      advances_bind (single b) fun _ _ _ hfirst => advances_chainFrom single hfirst⟩

theorem advances_expr (rules : Rules) : Advances fe cs b (expr fe.next) (ExprUpto cs rules b) :=
  advances_look looks_remaining fun n => (advances_upTo (2 * n)).2 b

end Parser

end Wdl
