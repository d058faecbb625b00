import Wdl.Parser.Document
import Wdl.Proofs.Script

/-!
# Wdl.Proofs.TypeSteps -- the steps that write a type

A type is its name, perhaps with one or two parameters in brackets, and perhaps with a mark behind
it. The parser of types reads just these steps: what it reads is written by them, and where they can
be taken it takes them, unless something is ahead behind them that belongs to the type.

* `Mark` is the mark, if there is one, and `TypeSteps` relates a type to the steps that write it. It
  has one constructor for each number of parameters.
* `typeUpTo_reads` is the one direction, by induction on the fuel of the parser. `typeUpTo_replays`
  is the other, by induction on the steps; `State.TypeEnds` says that nothing is ahead that goes on
  with the type.
-/

namespace Wdl

/-- The symbol of a quantifier. -/
def Surface.Quantifier.symbol : Surface.Quantifier → Symbol
  | .optional => .question
  | .nonempty => .plus
  | .optionalNonempty => .plusQuestion

namespace Parser

open Surface

/-! ## Marks -/

/-- The mark behind a type, if there is one: its quantifier and its token. -/
abbrev Mark := Option (Quantifier × Token)

namespace Mark

/-- The steps of a mark. -/
def steps : Mark → List Step
  | none => []
  | some (_, t) => [⟨t, Expect.afterType⟩]

/-- Where a type ends that ends at `stop` without its mark. -/
def stop (stop : Nat) : Mark → Nat
  | none => stop
  | some (_, t) => t.stop

/-- The quantifier of a mark and where it starts. -/
def quantifier (m : Mark) : Option (Quantifier × Nat) := m.map fun p => (p.1, p.2.start)

/-- The token of a mark is that of its quantifier. -/
def Fits (m : Mark) : Prop := ∀ p ∈ m, p.2.kind = .symbol p.1.symbol

end Mark

/-! ## Types -/

/-- The steps write a type. -/
inductive TypeSteps : TypeExpr → List Step → Prop
  | name (t : Token) (m : Mark) : t.kind = .name → m.Fits →
      TypeSteps (.mk ⟨t.start, m.stop t.stop⟩ (word t) [] m.quantifier)
        (⟨t, Expect.afterTypeName⟩ :: m.steps)
  | one (t bracket close : Token) (m : Mark) {p : TypeExpr} {xs : List Step} :
      t.kind = .name → bracket.kind = .symbol .bracketOpen →
      close.kind = .symbol .bracketClose → m.Fits → TypeSteps p xs →
      TypeSteps (.mk ⟨t.start, m.stop close.stop⟩ (word t) [p] m.quantifier)
        (⟨t, Expect.afterTypeName⟩ :: ⟨bracket, Expect.aName⟩ ::
          (xs ++ ⟨close, Expect.quantifiers⟩ :: m.steps))
  | two (t bracket comma close : Token) (m : Mark) {p q : TypeExpr} {xs ys : List Step} :
      t.kind = .name → bracket.kind = .symbol .bracketOpen → comma.kind = .symbol .comma →
      close.kind = .symbol .bracketClose → m.Fits → TypeSteps p xs → TypeSteps q ys →
      TypeSteps (.mk ⟨t.start, m.stop close.stop⟩ (word t) [p, q] m.quantifier)
        (⟨t, Expect.afterTypeName⟩ :: ⟨bracket, Expect.aName⟩ ::
          (xs ++ ⟨comma, Expect.aName⟩ :: (ys ++ ⟨close, Expect.quantifiers⟩ :: m.steps)))

/-- A type is not written by nothing. -/
theorem TypeSteps.ne_nil {t : TypeExpr} {xs : List Step} (h : TypeSteps t xs) : xs ≠ [] := by
  cases h <;> simp

theorem Mark.spanOf_stop (xs : List Step) (x : Step) (m : Mark) :
    (spanOf (xs ++ x :: m.steps)).stop = m.stop x.token.stop := by
  cases m with
  | none => simp [spanOf, Mark.steps, Mark.stop]
  | some p => simp [spanOf, Mark.steps, Mark.stop]

/-- A type is where its tokens are. -/
theorem TypeSteps.range_eq {t : TypeExpr} {xs : List Step} (h : TypeSteps t xs) :
    t.range = spanOf xs := by
  cases h with
  | name t m =>
    exact congrArg (Range.mk _) (Mark.spanOf_stop [] ⟨t, Expect.afterTypeName⟩ m).symm
  | @one t bracket close m p xs =>
    refine congrArg (Range.mk _) ?_
    exact (Mark.spanOf_stop (⟨t, _⟩ :: ⟨bracket, _⟩ :: xs) ⟨close, Expect.quantifiers⟩ m).symm
  | @two t bracket comma close m p q xs ys =>
    have ends : (spanOf (⟨t, Expect.afterTypeName⟩ :: ⟨bracket, Expect.aName⟩ ::
        (xs ++ ⟨comma, Expect.aName⟩ :: (ys ++ ⟨close, Expect.quantifiers⟩ :: m.steps)))).stop =
          m.stop close.stop := by
      simpa using Mark.spanOf_stop (⟨t, Expect.afterTypeName⟩ :: ⟨bracket, Expect.aName⟩ ::
        (xs ++ ⟨comma, Expect.aName⟩ :: ys)) ⟨close, Expect.quantifiers⟩ m
    exact congrArg (Range.mk _) ends.symm

/-! ## Reading

What the parser did is read off its primitives, from the first token to the last. -/

variable {lex : Scanner} {s s' : State}

/-- A terminal that goes on with a type. -/
def extendsType : Terminal → Bool
  | .symbol .bracketOpen | .symbol .question | .symbol .plus | .symbol .plusQuestion => true
  | _ => false

/-- Nothing is ahead that goes on with a type. -/
def State.TypeEnds (s : State) : Prop := s.kind?.any extendsType = false

theorem Quantifier.extendsType (q : Quantifier) : extendsType (.symbol q.symbol) = true := by
  cases q <;> rfl

/-- A mark is taken exactly if it is ahead. -/
theorem quantifier_eq_ok {m : Mark} :
    quantifier lex s = .ok (m, s') ↔
      m.Fits ∧ Run lex s m.steps s' ∧
        (m = none → ∀ q : Quantifier, s.kind? ≠ some (.symbol q.symbol)) := by
  rw [quantifier, peek_bind]
  generalize described : (m.Fits ∧ Run lex s m.steps s' ∧
    (m = none → ∀ q : Quantifier, s.kind? ≠ some (.symbol q.symbol))) = P
  have taken : ∀ q : Quantifier, s.kind? = some (.symbol q.symbol) →
      ((do return some (q, ← shift lex Expect.afterType) : Parser Mark) s = .ok (m, s') ↔ P) := by
    intro q seen
    rw [← described]
    simp only [bind_eq_ok, shift_eq_ok, pure_eq_ok]
    constructor
    · rintro ⟨t, _, run, rfl, rfl⟩
      rw [run.kind?_eq] at seen
      refine ⟨?_, run, by simp⟩
      rintro _ ⟨⟩
      exact Option.some.inj seen
    · rintro ⟨fits, run, unseen⟩
      cases m with
      | none => exact absurd seen (unseen rfl q)
      | some p =>
        obtain ⟨q', t⟩ := p
        have kind := fits _ rfl
        rw [run.kind?_eq] at seen
        have same : q' = q := by
          have eq := kind.symm.trans (Option.some.inj seen)
          revert eq
          cases q <;> cases q' <;> simp [Quantifier.symbol]
        subst same
        exact ⟨t, s', run, rfl, rfl⟩
  have missing : (∀ q : Quantifier, s.kind? ≠ some (.symbol q.symbol)) →
      ((pure none : Parser Mark) s = .ok (m, s') ↔ P) := by
    intro unseen
    rw [← described, pure_eq_ok]
    constructor
    · rintro ⟨rfl, rfl⟩
      exact ⟨by simp [Mark.Fits], .nil s, fun _ => unseen⟩
    · rintro ⟨fits, run, -⟩
      cases m with
      | none => exact ⟨rfl, run_nil.1 run⟩
      | some p =>
        refine absurd ?_ (unseen p.1)
        rw [run.kind?_eq]
        exact congrArg some (fits p rfl)
  -- the parser looks for the three symbols one by one
  cases seen : s.kind? with
  | none => exact missing (by simp [seen])
  | some k =>
    cases k with
    | symbol k =>
      cases k
      case question => exact taken .optional seen
      case plus => exact taken .nonempty seen
      case plusQuestion => exact taken .optionalNonempty seen
      all_goals exact missing fun q => by cases q <;> simp [seen, Quantifier.symbol]
    | _ => exact missing (by simp [seen])

/-- The parser of types reads the steps of the type it returns. -/
theorem typeUpTo_reads {n : Nat} {t : TypeExpr} (h : typeUpTo lex n s = .ok (t, s')) :
    ∃ xs, Run lex s xs s' ∧ TypeSteps t xs := by
  induction n generalizing s s' t with
  | zero => exact (reject_ne_ok.1 h).elim
  | succ n ih =>
    simp only [typeUpTo, bind_eq_ok, takeName_eq_ok] at h
    obtain ⟨_, s₁, ⟨name, kind, rfl, run⟩, ⟨ps, stop⟩, s₂, hparameters, m, s₃, hmark, h⟩ := h
    obtain ⟨fits, runMark, -⟩ := quantifier_eq_ok.1 hmark
    obtain ⟨rfl, eq⟩ : s₃ = s' ∧
        t = .mk ⟨name.start, Mark.stop stop m⟩ (word name) ps (Mark.quantifier m) := by
      cases m with
      | none =>
        obtain ⟨rfl, rfl⟩ := pure_eq_ok.1 h
        exact ⟨rfl, rfl⟩
      | some p =>
        obtain ⟨rfl, rfl⟩ := pure_eq_ok.1 h
        exact ⟨rfl, rfl⟩
    subst eq
    rw [typeParameters, optionalSymbol_bind] at hparameters
    rcases hparameters with ⟨bracket, u, opened, runOpen, hparameters⟩ | ⟨-, hparameters⟩
    · simp only [bind_eq_ok, takeSymbol_eq_ok, pure_eq_ok] at hparameters
      obtain ⟨first, v, hfirst, second, w, hsecond, close, _, ⟨closed, runClose⟩, eq, rfl⟩ :=
        hparameters
      cases eq
      obtain ⟨xs, runFirst, steps⟩ := ih hfirst
      rw [secondParameter, optionalSymbol_bind] at hsecond
      rcases hsecond with ⟨comma, x, between, runComma, hsecond⟩ | ⟨-, hsecond⟩
      · obtain ⟨r, y, hr, hsecond⟩ := bind_eq_ok.1 hsecond
        obtain ⟨rfl, rfl⟩ := pure_eq_ok.1 hsecond
        obtain ⟨ys, runSecond, steps'⟩ := ih hr
        refine ⟨_, ?_, .two name bracket comma close m kind opened between closed fits steps steps'⟩
        refine run_cons.2 ⟨s₁, run, run_cons.2 ⟨u, runOpen, run_append.2 ⟨v, runFirst, ?_⟩⟩⟩
        refine run_cons.2 ⟨x, runComma, run_append.2 ⟨y, runSecond, ?_⟩⟩
        exact run_cons.2 ⟨_, runClose, runMark⟩
      · obtain ⟨rfl, rfl⟩ := pure_eq_ok.1 hsecond
        refine ⟨_, ?_, .one name bracket close m kind opened closed fits steps⟩
        refine run_cons.2 ⟨s₁, run, run_cons.2 ⟨u, runOpen, run_append.2 ⟨v, runFirst, ?_⟩⟩⟩
        exact run_cons.2 ⟨_, runClose, runMark⟩
    · obtain ⟨eq, rfl⟩ := pure_eq_ok.1 hparameters
      cases eq
      exact ⟨_, run_cons.2 ⟨s₁, run, runMark⟩, .name name m kind fits⟩

/-! ## Replaying

The parser looks for a bracket behind a name and for a mark behind that. If neither is in the steps,
neither may be ahead. -/

/-- A type is taken up to its mark, and then its mark. -/
theorem typeUpTo_marked {n : Nat} {s₁ s₂ : State} {name : Token} {ps : List TypeExpr} {stop : Nat}
    {m : Mark} (kind : name.kind = .name) (fits : m.Fits)
    (run : Run lex s [⟨name, Expect.afterTypeName⟩] s₁)
    (parameters : typeParameters lex (typeUpTo lex n) (word name) s₁ = .ok ((ps, stop), s₂))
    (runMark : Run lex s₂ m.steps s') (ends : s'.TypeEnds) :
    typeUpTo lex (n + 1) s =
      .ok (.mk ⟨name.start, m.stop stop⟩ (word name) ps m.quantifier, s') := by
  have mark : quantifier lex s₂ = .ok (m, s') := by
    refine quantifier_eq_ok.2 ⟨fits, runMark, ?_⟩
    rintro rfl q seen
    obtain rfl := run_nil.1 runMark
    simp [State.TypeEnds, seen, Quantifier.extendsType] at ends
  rw [typeUpTo]
  refine bind_eq_ok.2 ⟨_, s₁, takeName_eq_ok.2 ⟨name, kind, rfl, run⟩, ?_⟩
  refine bind_eq_ok.2 ⟨(ps, stop), s₂, parameters, bind_eq_ok.2 ⟨m, s', mark, ?_⟩⟩
  cases m with
  | none => exact pure_eq_ok.2 ⟨rfl, rfl⟩
  | some p => exact pure_eq_ok.2 ⟨rfl, rfl⟩

theorem typeEnds_of_kind {k : Terminal} (kind : s.kind? = some k) (h : extendsType k = false) :
    s.TypeEnds := by
  simp [State.TypeEnds, kind, h]

/-- Where the steps of a type can be taken, and nothing is ahead then that goes on with it, the
parser of types takes them. -/
theorem typeUpTo_replays {n : Nat} {t : TypeExpr} {xs : List Step} (steps : TypeSteps t xs)
    (short : xs.length ≤ n) (run : Run lex s xs s') (ends : s'.TypeEnds) :
    typeUpTo lex n s = .ok (t, s') := by
  induction steps generalizing n s s' with
  | name t m kind fits =>
    cases n with
    | zero => simp at short
    | succ n =>
      obtain ⟨s₁, run, runMark⟩ := run_cons.1 run
      refine typeUpTo_marked kind fits run ?_ runMark ends
      rw [typeParameters, optionalSymbol_bind]
      refine .inr ⟨fun seen => ?_, pure_eq_ok.2 ⟨rfl, rfl⟩⟩
      cases m with
      | none =>
        obtain rfl := run_nil.1 runMark
        simp [State.TypeEnds, seen, extendsType] at ends
      | some p =>
        rw [runMark.kind?_eq] at seen
        have same := (fits p rfl).symm.trans (Option.some.inj seen)
        revert same
        cases p.1 <;> simp [Quantifier.symbol]
  | @one t bracket close m p xs kind opened closed fits _ ih =>
    cases n with
    | zero => simp at short
    | succ n =>
      obtain ⟨s₁, run, rest⟩ := run_cons.1 run
      obtain ⟨u, runOpen, rest⟩ := run_cons.1 rest
      obtain ⟨v, runFirst, rest⟩ := run_append.1 rest
      obtain ⟨s₂, runClose, runMark⟩ := run_cons.1 rest
      have behind : v.kind? = some (.symbol .bracketClose) := by rw [runClose.kind?_eq, closed]
      refine typeUpTo_marked kind fits run ?_ runMark ends
      rw [typeParameters, optionalSymbol_bind]
      refine .inl ⟨bracket, u, opened, runOpen, ?_⟩
      have first := ih (n := n) (by simp at short; omega) runFirst (typeEnds_of_kind behind rfl)
      refine bind_eq_ok.2 ⟨p, v, first, bind_eq_ok.2 ⟨[], v, ?_, bind_eq_ok.2
        ⟨close, s₂, takeSymbol_eq_ok.2 ⟨closed, runClose⟩, pure_eq_ok.2 ⟨rfl, rfl⟩⟩⟩⟩
      rw [secondParameter, optionalSymbol_bind]
      exact .inr ⟨by simp [behind], pure_eq_ok.2 ⟨rfl, rfl⟩⟩
  | @two t bracket comma close m p q xs ys kind opened between closed fits _ _ ih ih' =>
    cases n with
    | zero => simp at short
    | succ n =>
      obtain ⟨s₁, run, rest⟩ := run_cons.1 run
      obtain ⟨u, runOpen, rest⟩ := run_cons.1 rest
      obtain ⟨v, runFirst, rest⟩ := run_append.1 rest
      obtain ⟨x, runComma, rest⟩ := run_cons.1 rest
      obtain ⟨y, runSecond, rest⟩ := run_append.1 rest
      obtain ⟨s₂, runClose, runMark⟩ := run_cons.1 rest
      have behind : v.kind? = some (.symbol .comma) := by rw [runComma.kind?_eq, between]
      have behind' : y.kind? = some (.symbol .bracketClose) := by rw [runClose.kind?_eq, closed]
      refine typeUpTo_marked kind fits run ?_ runMark ends
      rw [typeParameters, optionalSymbol_bind]
      refine .inl ⟨bracket, u, opened, runOpen, ?_⟩
      have first := ih (n := n) (by simp at short; omega) runFirst (typeEnds_of_kind behind rfl)
      have second := ih' (n := n) (by simp at short; omega) runSecond (typeEnds_of_kind behind' rfl)
      refine bind_eq_ok.2 ⟨p, v, first, bind_eq_ok.2 ⟨[q], y, ?_, bind_eq_ok.2
        ⟨close, s₂, takeSymbol_eq_ok.2 ⟨closed, runClose⟩, pure_eq_ok.2 ⟨rfl, rfl⟩⟩⟩⟩
      rw [secondParameter, optionalSymbol_bind]
      exact .inl ⟨comma, x, between, runComma, bind_eq_ok.2 ⟨q, y, second, pure_eq_ok.2 ⟨rfl, rfl⟩⟩⟩

/-- The fuel that the parser starts with is enough for any steps that can be taken. -/
theorem typeExpr_replays (forward : Forward lex) {t : TypeExpr} {xs : List Step}
    (steps : TypeSteps t xs) (run : Run lex s xs s') (ends : s'.TypeEnds) :
    typeExpr lex s = .ok (t, s') := by
  have used := run.length_add_left forward
  have left := s.left_le
  rw [typeExpr, remaining_bind]
  exact typeUpTo_replays steps (by omega) run ends

end Parser

end Wdl
