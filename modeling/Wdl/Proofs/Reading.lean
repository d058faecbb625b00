import Wdl.Proofs.Script

/-!
# Wdl.Proofs.Reading -- what a parser reads is a script

Whatever the bounds on its loops, a parser that succeeds has taken the steps of a script of what it
returns. Each rule is shown to read its own kind of script, given that the parsers of the
expressions inside it do; the induction over the bound on nesting comes last. The bounds matter in
one place: behind an expression nothing may be ahead that would go on with it, and for that each
loop must have been allowed as many rounds as there are steps left.

* `Takes lex item value steps R` is the specification of a parser of items: it takes the steps of
  some piece and returns its value. `manyUpTo_takes`, `commaList_takes` and `item_takes` are about
  loops and items.
* `NoAccess s` and `Exhausted s` say that nothing is ahead that an operand, or an expression, goes
  on with.
* `ReadsExpr lex p` and `ReadsOperand lex p` are the specifications of the two parsers that call
  each other.
* `accessed_reads`, `afterName_reads`, `choice_reads` and their like are about the rules,
  `chainUpTo_reads` and `signsUpTo_reads` about the loops over operators.
* `HoleBetween lex s s' found` says that what stands between the braces of a placeholder was read
  between two states; `placeholderUpTo_reads` finds it by what follows the first word.
* `reads` is the result, for every bound at once.
-/

namespace Wdl.Parser

open Surface

variable {lex : Scanner} {α β : Type}

/-! ## Lists

The number of rounds is an argument of the loops. That the loop has stopped for want of another item
is claimed only where there are at least as many rounds as steps left, since each item takes a step
(`ne`). -/

/-- A parser of items that are written by steps: what it returns is the value of some `q` with the
property `R`, and it takes the steps of `q`. -/
def Takes (lex : Scanner) (item : Parser α) (value : β → α) (steps : β → List Step)
    (R : β → Prop) : Prop :=
  ∀ (s s' : State) (x : α), item s = .ok (x, s') → ∃ q, value q = x ∧ R q ∧ Run lex s (steps q) s'

/-- With no step left, nothing is ahead. -/
theorem kind?_of_left_zero {s : State} (h : s.left = 0) : s.kind? = none := by
  unfold State.left at h
  split at h
  · rename_i none_ahead
    rw [State.kind?, none_ahead, Option.map_none]
  · omega

section Lists

variable {item : Parser α} {value : β → α} {steps : β → List Step} {R : β → Prop}

/-- A loop takes items as long as one starts, given as many rounds as there are steps left. -/
theorem manyUpTo_takes (forward : Forward lex) (h : Takes lex item value steps R)
    (ne : ∀ q, R q → steps q ≠ []) {starts : Terminal → Bool} {n : Nat} {s s' : State}
    {xs : List α} (hm : manyUpTo starts item n s = .ok (xs, s')) :
    ∃ qs : List β, qs.map value = xs ∧ (∀ q ∈ qs, R q) ∧ Run lex s (qs.flatMap steps) s' ∧
      (s.left ≤ n → s'.kind?.any starts = false) ∧
      (s.kind?.any starts = false → qs = []) := by
  induction n generalizing s xs with
  | zero =>
    obtain ⟨rfl, rfl⟩ := pure_eq_ok.1 hm
    refine ⟨[], rfl, by simp, .nil s, fun left => ?_, fun _ => rfl⟩
    rw [kind?_of_left_zero (by omega)]
    rfl
  | succ n ih =>
    simp only [manyUpTo, peek_bind] at hm
    split at hm
    · rename_i seen
      obtain ⟨x, t, hx, hm⟩ := bind_eq_ok.1 hm
      obtain ⟨rest, u, hrest, hm⟩ := bind_eq_ok.1 hm
      obtain ⟨rfl, rfl⟩ := pure_eq_ok.1 hm
      obtain ⟨q, rfl, hq, run⟩ := h s t x hx
      obtain ⟨qs, rfl, hqs, runs, stuck, -⟩ := ih hrest
      refine ⟨q :: qs, rfl, List.forall_mem_cons.2 ⟨hq, hqs⟩, ?_, fun left => stuck ?_, ?_⟩
      · exact run_append.2 ⟨t, run, runs⟩
      -- an item has taken a step, so the rounds that are left are still enough
      · have used := run.length_add_left forward
        have := List.length_pos_of_ne_nil (ne q hq)
        omega
      · intro unseen
        rw [unseen] at seen
        cases seen
    · rename_i unseen
      obtain ⟨rfl, rfl⟩ := pure_eq_ok.1 hm
      exact ⟨[], rfl, by simp, .nil s, fun _ => by simpa using unseen, fun _ => rfl⟩

/-- A loop is given as many rounds as there are characters, which is enough. -/
theorem many_takes (forward : Forward lex) (h : Takes lex item value steps R)
    (ne : ∀ q, R q → steps q ≠ []) {starts : Terminal → Bool} {s s' : State} {xs : List α}
    (hm : many starts item s = .ok (xs, s')) :
    ∃ qs : List β, qs.map value = xs ∧ (∀ q ∈ qs, R q) ∧ Run lex s (qs.flatMap steps) s' ∧
      s'.kind?.any starts = false ∧ (s.kind?.any starts = false → qs = []) := by
  rw [many, remaining_bind] at hm
  obtain ⟨qs, values, all, run, stuck, none⟩ := manyUpTo_takes forward h ne hm
  exact ⟨qs, values, all, run, stuck s.left_le, none⟩

theorem moreUpTo_takes (h : Takes lex item value steps R) {close : Symbol} {after : Expect}
    {n : Nat} {s s' : State} {xs : List α}
    (hm : moreUpTo lex close after item n s = .ok (xs, s')) :
    ∃ qs : List β, qs.map value = xs ∧ (∀ q ∈ qs, R q) ∧
      ∃ ys, Run lex s ys s' ∧ More after (qs.map steps) ys := by
  induction n generalizing s xs with
  | zero =>
    obtain ⟨rfl, rfl⟩ := pure_eq_ok.1 hm
    exact ⟨[], rfl, by simp, [], .nil s, .nil⟩
  | succ n ih =>
    simp only [moreUpTo, optionalSymbol_bind, sees_bind] at hm
    rcases hm with ⟨comma, t, kind, first, ⟨-, hm⟩ | ⟨-, hm⟩⟩ | ⟨-, hm⟩
    · obtain ⟨rfl, rfl⟩ := pure_eq_ok.1 hm
      exact ⟨[], rfl, by simp, _, first, .trailing comma kind⟩
    · obtain ⟨x, u, hx, hm⟩ := bind_eq_ok.1 hm
      obtain ⟨rest, v, hrest, hm⟩ := bind_eq_ok.1 hm
      obtain ⟨rfl, rfl⟩ := pure_eq_ok.1 hm
      obtain ⟨q, rfl, hq, run⟩ := h t u x hx
      obtain ⟨qs, rfl, hqs, ys, runs, more⟩ := ih hrest
      refine ⟨q :: qs, rfl, List.forall_mem_cons.2 ⟨hq, hqs⟩, ⟨comma, after⟩ :: (steps q ++ ys),
        ?_, .cons comma kind more⟩
      exact run_cons.2 ⟨t, first, run_append.2 ⟨u, run, runs⟩⟩
    · obtain ⟨rfl, rfl⟩ := pure_eq_ok.1 hm
      exact ⟨[], rfl, by simp, [], .nil s, .nil⟩

theorem commaList_takes (h : Takes lex item value steps R) {close : Symbol} {after : Expect}
    {s s' : State} {xs : List α} (hm : commaList lex close after item s = .ok (xs, s')) :
    ∃ qs : List β, qs.map value = xs ∧ (∀ q ∈ qs, R q) ∧
      ∃ ys, Run lex s ys s' ∧ Separated after (qs.map steps) ys := by
  simp only [commaList, sees_bind] at hm
  rcases hm with ⟨-, hm⟩ | ⟨-, hm⟩
  · obtain ⟨rfl, rfl⟩ := pure_eq_ok.1 hm
    exact ⟨[], rfl, by simp, [], .nil s, .nil⟩
  · obtain ⟨x, t, hx, hm⟩ := bind_eq_ok.1 hm
    rw [remaining_bind] at hm
    obtain ⟨rest, u, hrest, hm⟩ := bind_eq_ok.1 hm
    obtain ⟨rfl, rfl⟩ := pure_eq_ok.1 hm
    obtain ⟨q, rfl, hq, run⟩ := h s t x hx
    obtain ⟨qs, rfl, hqs, ys, runs, more⟩ := moreUpTo_takes h hrest
    exact ⟨q :: qs, rfl, List.forall_mem_cons.2 ⟨hq, hqs⟩, steps q ++ ys,
      run_append.2 ⟨t, run, runs⟩, .cons more⟩

end Lists

/-! ## What may be ahead

A choice at the end of an operand has gone as far as it can, so behind it nothing may be ahead at
all that an expression goes on with. The last conjunct of `ReadsOperand` says so; it is what the
rule for chains asks for. -/

/-- No access is ahead. -/
def NoAccess (s : State) : Prop := s.kind?.any startsAccessor = false

/-- Nothing is ahead that an expression goes on with. -/
def Exhausted (s : State) : Prop := NoAccess s ∧ s.kind?.bind binaryOp? = none

/-- A parser of expressions reads scripts of expressions, as far as they go. -/
def ReadsExpr (lex : Scanner) (p : Parser Surface.Expr) : Prop :=
  ∀ (s s' : State) (e : Surface.Expr), p s = .ok (e, s') →
    ∃ xs, Run lex s xs s' ∧ Script .expr .plain e xs ∧ Exhausted s'

/-- A parser of operands reads scripts of operands, as far as they go. -/
def ReadsOperand (lex : Scanner) (p : Parser Surface.Expr) : Prop :=
  ∀ (s s' : State) (e : Surface.Expr), p s = .ok (e, s') →
    ∃ xs, Run lex s xs s' ∧ Script .operand .plain e xs ∧ NoAccess s' ∧
      (endsOpen e = true → Exhausted s')

/-! ## The rules, given the expressions inside

The parsers inside are variables with a specification. A rule that ends with a token of its own asks
for nothing more; only a choice hands on what it knows of its last branch. -/

section Rules

variable {expr operand : Parser Surface.Expr}

/-- An access takes the steps of a member's name, or of an index in brackets. -/
theorem accessor_takes (hexpr : ReadsExpr lex expr) :
    Takes lex (accessor lex expr) Suffix.accessor Suffix.steps
      fun a => a.Fits ∧ ∀ x ∈ a.inner, Script .expr .plain x.expr x.steps := by
  intro s s' a h
  rw [accessor, sees_bind] at h
  simp only [bind_eq_ok, shift_eq_ok, takeName_eq_ok, takeSymbol_eq_ok, pure_eq_ok] at h
  rcases h with ⟨seen, dot, t, first, w, u, ⟨name, kind, rfl, second⟩, rfl, rfl⟩ |
    ⟨-, bracket, t, ⟨kind, first⟩, e, u, he, close, v, ⟨kind', last⟩, rfl, rfl⟩
  · have dotKind : dot.kind = .symbol .dot := by
      rw [first.kind?_eq] at seen
      exact Option.some.inj seen
    exact ⟨.member dot name, rfl, ⟨⟨dotKind, kind⟩, by simp [Suffix.inner]⟩,
      run_cons.2 ⟨t, first, second⟩⟩
  · obtain ⟨xs, run, script, -⟩ := hexpr t u e he
    refine ⟨.index bracket close ⟨e, xs⟩, rfl, ⟨⟨kind, kind'⟩, by simpa [Suffix.inner]⟩, ?_⟩
    exact run_cons.2 ⟨t, first, run_append.2 ⟨u, run, last⟩⟩

theorem Suffix.steps_ne_nil (a : Suffix) : a.steps ≠ [] := by
  cases a <;> simp [Suffix.steps]

/-- Accesses behind a primary; a choice has none. -/
theorem accessed_reads (forward : Forward lex) (hexpr : ReadsExpr lex expr) {place : Place}
    {s s' : State} {subject e : Surface.Expr} {xs : List Step}
    (h : accessed lex expr subject s = .ok (e, s')) (script : Script .primary place subject xs)
    (exhausted : endsOpen subject = true → Exhausted s) :
    ∃ ys, Run lex s ys s' ∧ Script .accessed place e (xs ++ ys) ∧ NoAccess s' ∧
      (endsOpen e = true → Exhausted s') := by
  obtain ⟨accessors, t, many, h⟩ := bind_eq_ok.1 h
  obtain ⟨suffixes, rfl, all, run, stuck, none⟩ :=
    many_takes forward (accessor_takes hexpr) (fun a _ => a.steps_ne_nil) many
  cases suffixes with
  | nil =>
    obtain ⟨rfl, rfl⟩ := pure_eq_ok.1 h
    obtain rfl := run_nil.1 run
    exact ⟨[], .nil s, by simpa using .bare script, stuck, exhausted⟩
  | cons a suffixes =>
    obtain ⟨rfl, rfl⟩ := pure_eq_ok.1 h
    have closed : endsOpen subject = false := by
      by_contra isOpen
      have := none (exhausted (by simpa using isOpen)).1
      cases this
    refine ⟨_, run, .accessed (a :: suffixes) (List.cons_ne_nil _ _) closed script ?_ ?_, stuck, ?_⟩
    · intro b hb
      exact (all b hb).1
    · intro b hb
      exact (all b hb).2
    · intro isOpen
      cases isOpen

/-- A member of a struct has a name or a quoted text for its key. -/
theorem structMember_takes (hexpr : ReadsExpr lex expr) :
    Takes lex (structMember lex expr) MemberPiece.member MemberPiece.steps
      fun m => (m.key.Fits ∧ m.colon.kind = .symbol .colon) ∧
        Script .expr .plain m.value.expr m.value.steps := by
  intro s s' m h
  rw [structMember, sees_bind] at h
  simp only [bind_eq_ok, takeName_eq_ok, takeSymbol_eq_ok, takeQuoted_eq_ok, pure_eq_ok] at h
  rcases h with ⟨-, _, t, ⟨name, kind, rfl, first⟩, colon, u, ⟨kind', second⟩, e, v, he, rfl, rfl⟩ |
    ⟨-, _, t, ⟨key, q, kind, rfl, first⟩, colon, u, ⟨kind', second⟩, e, v, he, rfl, rfl⟩
  · obtain ⟨xs, run, script, -⟩ := hexpr u _ e he
    refine ⟨⟨.word name, colon, ⟨e, xs⟩⟩, rfl, ⟨⟨kind, kind'⟩, script⟩, ?_⟩
    exact run_cons.2 ⟨t, first, run_cons.2 ⟨u, second, run⟩⟩
  · obtain ⟨xs, run, script, -⟩ := hexpr u _ e he
    refine ⟨⟨.quoted q key, colon, ⟨e, xs⟩⟩, rfl, ⟨⟨kind, kind'⟩, script⟩, ?_⟩
    exact run_cons.2 ⟨t, first, run_cons.2 ⟨u, second, run⟩⟩

/-- An item of a map is two expressions with a colon between them. -/
theorem mapItem_takes (hexpr : ReadsExpr lex expr) :
    Takes lex (mapItem lex expr) ItemPiece.item ItemPiece.steps
      fun i => i.colon.kind = .symbol .colon ∧ Script .expr .plain i.key.expr i.key.steps ∧
        Script .expr .plain i.value.expr i.value.steps := by
  intro s s' i h
  simp only [mapItem, bind_eq_ok, takeSymbol_eq_ok, pure_eq_ok] at h
  obtain ⟨key, t, hkey, colon, u, ⟨kind, colonRun⟩, value, v, hvalue, rfl, rfl⟩ := h
  obtain ⟨xs, runKey, key', -⟩ := hexpr s t key hkey
  obtain ⟨ys, runValue, value', -⟩ := hexpr u _ value hvalue
  refine ⟨⟨⟨key, xs⟩, colon, ⟨value, ys⟩⟩, rfl, ⟨kind, key', value'⟩, ?_⟩
  exact run_append.2 ⟨t, runKey, run_cons.2 ⟨u, colonRun, runValue⟩⟩

/-- An expression is the simplest item. -/
theorem item_takes (hexpr : ReadsExpr lex expr) :
    Takes lex expr Piece.expr Piece.steps fun x => Script .expr .plain x.expr x.steps := by
  intro s s' e h
  obtain ⟨xs, run, script, -⟩ := hexpr s s' e h
  exact ⟨⟨e, xs⟩, rfl, script, run⟩

/-- A name starts an application, a struct literal, or stands alone. -/
theorem afterName_reads (hexpr : ReadsExpr lex expr) (place : Place) {t : Token}
    (kind : t.kind = .name) {s s' : State} {e : Surface.Expr}
    (h : afterName lex expr (word t) s = .ok (e, s')) :
    ∃ xs, Run lex s xs s' ∧ Script .primary place e (⟨t, place.afterName⟩ :: xs) ∧
      endsOpen e = false := by
  rw [afterName, sees_bind] at h
  rcases h with ⟨seen, h⟩ | ⟨-, h⟩
  · simp only [bind_eq_ok, shift_eq_ok, takeSymbol_eq_ok, pure_eq_ok] at h
    obtain ⟨paren, u, first, es, v, hes, close, w, ⟨kind', last⟩, rfl, rfl⟩ := h
    obtain ⟨items, rfl, all, xs, run, separated⟩ := commaList_takes (item_takes hexpr) hes
    rw [first.kind?_eq] at seen
    exact ⟨_, run_cons.2 ⟨u, first, run_append.2 ⟨v, run, last⟩⟩,
      .apply t paren close items kind (Option.some.inj seen) kind' all separated, rfl⟩
  · rw [sees_bind] at h
    rcases h with ⟨seen, h⟩ | ⟨-, h⟩
    · simp only [bind_eq_ok, shift_eq_ok, takeSymbol_eq_ok, pure_eq_ok] at h
      obtain ⟨brace, u, first, ms, v, hms, close, w, ⟨kind', last⟩, rfl, rfl⟩ := h
      obtain ⟨items, rfl, all, xs, run, separated⟩ := commaList_takes (structMember_takes hexpr) hms
      rw [first.kind?_eq] at seen
      exact ⟨_, run_cons.2 ⟨u, first, run_append.2 ⟨v, run, last⟩⟩,
        .struct t brace close items kind (Option.some.inj seen) kind' (fun m hm => (all m hm).1)
          (fun m hm => (all m hm).2) separated, rfl⟩
    · obtain ⟨rfl, rfl⟩ := pure_eq_ok.1 h
      exact ⟨[], .nil s, .name t kind, rfl⟩

theorem array_reads (hexpr : ReadsExpr lex expr) (place : Place) {s s' : State} {e : Surface.Expr}
    (h : array lex expr s = .ok (e, s')) :
    ∃ xs, Run lex s xs s' ∧ Script .primary place e xs ∧ endsOpen e = false := by
  simp only [array, bind_eq_ok, takeSymbol_eq_ok, pure_eq_ok] at h
  obtain ⟨bracket, t, ⟨kind, first⟩, es, u, hes, close, v, ⟨kind', last⟩, rfl, rfl⟩ := h
  obtain ⟨items, rfl, all, xs, run, separated⟩ := commaList_takes (item_takes hexpr) hes
  exact ⟨_, run_cons.2 ⟨t, first, run_append.2 ⟨u, run, last⟩⟩,
    .array bracket close items kind kind' all separated, rfl⟩

theorem parenthesized_reads (hexpr : ReadsExpr lex expr) (place : Place) {s s' : State}
    {e : Surface.Expr} (h : parenthesized lex expr s = .ok (e, s')) :
    ∃ xs, Run lex s xs s' ∧ Script .primary place e xs ∧ endsOpen e = false := by
  obtain ⟨paren, t, hparen, h⟩ := bind_eq_ok.1 h
  obtain ⟨kind, first⟩ := takeSymbol_eq_ok.1 hparen
  obtain ⟨left, u, hleft, h⟩ := bind_eq_ok.1 h
  obtain ⟨xs, runLeft, scriptLeft, -⟩ := hexpr t u left hleft
  rw [optionalSymbol_bind] at h
  simp only [bind_eq_ok, takeSymbol_eq_ok, pure_eq_ok] at h
  rcases h with ⟨comma, v, kindComma, runComma, right, w, hright, close, _, ⟨kind', last⟩, rfl, rfl⟩
    | ⟨-, close, _, ⟨kind', last⟩, rfl, rfl⟩
  · obtain ⟨ys, runRight, scriptRight, -⟩ := hexpr v w right hright
    refine ⟨_, ?_, .pair paren comma close kind kindComma kind' scriptLeft scriptRight, rfl⟩
    exact run_cons.2 ⟨t, first, run_append.2 ⟨u, runLeft, run_cons.2 ⟨v, runComma,
      run_append.2 ⟨w, runRight, last⟩⟩⟩⟩
  · exact ⟨_, run_cons.2 ⟨t, first, run_append.2 ⟨u, runLeft, last⟩⟩,
      .group paren close kind kind' scriptLeft, rfl⟩

theorem map_reads (hexpr : ReadsExpr lex expr) (place : Place) {s s' : State} {e : Surface.Expr}
    (h : map lex expr s = .ok (e, s')) :
    ∃ xs, Run lex s xs s' ∧ Script .primary place e xs ∧ endsOpen e = false := by
  simp only [map, bind_eq_ok, takeSymbol_eq_ok, pure_eq_ok] at h
  obtain ⟨brace, t, ⟨kind, first⟩, es, u, hes, close, v, ⟨kind', last⟩, rfl, rfl⟩ := h
  obtain ⟨items, rfl, all, xs, run, separated⟩ := commaList_takes (mapItem_takes hexpr) hes
  exact ⟨_, run_cons.2 ⟨t, first, run_append.2 ⟨u, run, last⟩⟩,
    .map brace close items kind kind' (fun i hi => (all i hi).1) (fun i hi => (all i hi).2.1)
      (fun i hi => (all i hi).2.2) separated, rfl⟩

/-- The last branch of a choice goes as far as it can. -/
theorem choice_reads (hexpr : ReadsExpr lex expr) (place : Place) {s s' : State} {e : Surface.Expr}
    (h : choice lex expr s = .ok (e, s')) :
    ∃ xs, Run lex s xs s' ∧ Script .primary place e xs ∧ Exhausted s' := by
  simp only [choice, bind_eq_ok, takeKeyword_eq_ok, pure_eq_ok] at h
  obtain ⟨kwIf, s₁, ⟨kindIf, runIf⟩, a, s₂, ha, kwThen, s₃, ⟨kindThen, runThen⟩, b, s₄, hb, kwElse,
    s₅, ⟨kindElse, runElse⟩, c, s₆, hc, rfl, rfl⟩ := h
  obtain ⟨xs, runA, scriptA, -⟩ := hexpr _ _ a ha
  obtain ⟨ys, runB, scriptB, -⟩ := hexpr _ _ b hb
  obtain ⟨zs, runC, scriptC, exhausted⟩ := hexpr _ _ c hc
  refine ⟨_, ?_, .choice kwIf kwThen kwElse kindIf kindThen kindElse scriptA scriptB scriptC,
    exhausted⟩
  exact run_cons.2 ⟨s₁, runIf, run_append.2 ⟨s₂, runA, run_cons.2 ⟨s₃, runThen,
    run_append.2 ⟨s₄, runB, run_cons.2 ⟨s₅, runElse, runC⟩⟩⟩⟩⟩

/-! ## Operators -/

/-- A chain goes on as long as an operator is ahead, given as many rounds as there are steps left.
Nothing follows an operand that ends with a choice. -/
theorem chainUpTo_reads (forward : Forward lex) (hoperand : ReadsOperand lex operand) {n : Nat}
    {s s' : State} {rest : List (BinaryOp × Surface.Expr)}
    (h : chainUpTo lex operand n s = .ok (rest, s')) :
    ∃ links : List Link, links.map Link.link = rest ∧
      (∀ l ∈ links, binaryOp? l.sign.kind = some l.op) ∧
      (∀ l ∈ links, Script .operand .plain l.operand.expr l.operand.steps) ∧
      Run lex s (links.flatMap Link.steps) s' ∧
      (∀ x ∈ (links.map fun l => l.operand.expr).dropLast, endsOpen x = false) ∧
      (NoAccess s → s.left ≤ n → Exhausted s') ∧
      (s.kind?.bind binaryOp? = none → links = []) := by
  -- an operand that ends open leaves no operator ahead, so it can only be the last of the chain
  induction n generalizing s rest with
  | zero =>
    obtain ⟨rfl, rfl⟩ := pure_eq_ok.1 h
    refine ⟨[], rfl, by simp, by simp, .nil s, by simp, fun access left => ⟨access, ?_⟩,
      fun _ => rfl⟩
    rw [kind?_of_left_zero (by omega)]
    rfl
  | succ n ih =>
    rw [chainUpTo, peek_bind] at h
    cases seen : s.kind?.bind binaryOp? with
    | none =>
      rw [seen] at h
      obtain ⟨rfl, rfl⟩ := pure_eq_ok.1 h
      exact ⟨[], rfl, by simp, by simp, .nil s, by simp, fun access _ => ⟨access, seen⟩,
        fun _ => rfl⟩
    | some op =>
      rw [seen] at h
      obtain ⟨sign, t, hsign, h⟩ := bind_eq_ok.1 h
      obtain ⟨right, u, hright, h⟩ := bind_eq_ok.1 h
      obtain ⟨rest, v, hrest, h⟩ := bind_eq_ok.1 h
      obtain ⟨rfl, rfl⟩ := pure_eq_ok.1 h
      have first := shift_eq_ok.1 hsign
      obtain ⟨xs, run, script, access, choiceEnd⟩ := hoperand t u right hright
      obtain ⟨links, rfl, ops, scripts, runs, closed, stuck, none⟩ := ih hrest
      rw [first.kind?_eq] at seen
      refine ⟨⟨op, sign, ⟨right, xs⟩⟩ :: links, rfl, List.forall_mem_cons.2 ⟨seen, ops⟩,
        List.forall_mem_cons.2 ⟨script, scripts⟩, ?_, ?_, fun _ left => stuck access ?_, ?_⟩
      · exact run_append.2 ⟨u, run_cons.2 ⟨t, first, run⟩, runs⟩
      · cases links with
        | nil => simp
        | cons l links =>
          refine List.forall_mem_cons.2 ⟨?_, closed⟩
          by_contra isOpen
          have := none (choiceEnd (by simpa using isOpen)).2
          cases this
      · have used := (run_cons.2 ⟨t, first, run⟩).length_add_left forward
        rw [List.length_cons] at used
        omega
      · intro unseen
        cases unseen

/-- The chain that an operand starts. -/
theorem chainFrom_reads (forward : Forward lex) (hoperand : ReadsOperand lex operand)
    {place : Place} {s s' : State} {first e : Surface.Expr} {xs : List Step}
    (h : chainFrom lex operand first s = .ok (e, s')) (script : Script .operand place first xs)
    (access : NoAccess s) (exhausted : endsOpen first = true → Exhausted s) :
    ∃ ys, Run lex s ys s' ∧ Script .expr place e (xs ++ ys) ∧ Exhausted s' := by
  rw [chainFrom, remaining_bind] at h
  obtain ⟨rest, t, hrest, h⟩ := bind_eq_ok.1 h
  obtain ⟨links, rfl, ops, scripts, run, closed, stuck, none⟩ :=
    chainUpTo_reads forward hoperand hrest
  cases links with
  | nil =>
    obtain ⟨rfl, rfl⟩ := pure_eq_ok.1 h
    obtain rfl := run_nil.1 run
    exact ⟨[], .nil s, by simpa using .single script, stuck access s.left_le⟩
  | cons l links =>
    obtain ⟨rfl, rfl⟩ := pure_eq_ok.1 h
    refine ⟨_, run, .chain (l :: links) (List.cons_ne_nil _ _) script ops scripts ?_,
      stuck access s.left_le⟩
    refine List.forall_mem_cons.2 ⟨?_, closed⟩
    by_contra isOpen
    have := none (exhausted (by simpa using isOpen)).2
    cases this

/-- Signs are taken as long as one is ahead. -/
theorem signsUpTo_reads {n : Nat} {s s' : State} {signs : List (UnaryOp × Range)}
    (h : signsUpTo lex n s = .ok (signs, s')) :
    ∃ xs : List Sign, xs.map Sign.sign = signs ∧
      (∀ x ∈ xs, unaryOp? x.token.kind = some x.op) ∧ Run lex s (xs.map Sign.step) s' := by
  induction n generalizing s signs with
  | zero =>
    obtain ⟨rfl, rfl⟩ := pure_eq_ok.1 h
    exact ⟨[], rfl, by simp, .nil s⟩
  | succ n ih =>
    rw [signsUpTo, peek_bind] at h
    cases seen : s.kind?.bind unaryOp? with
    | none =>
      rw [seen] at h
      obtain ⟨rfl, rfl⟩ := pure_eq_ok.1 h
      exact ⟨[], rfl, by simp, .nil s⟩
    | some op =>
      rw [seen] at h
      obtain ⟨token, t, htoken, h⟩ := bind_eq_ok.1 h
      obtain ⟨rest, u, hrest, h⟩ := bind_eq_ok.1 h
      obtain ⟨rfl, rfl⟩ := pure_eq_ok.1 h
      have first := shift_eq_ok.1 htoken
      obtain ⟨xs, rfl, ops, run⟩ := ih hrest
      rw [first.kind?_eq] at seen
      exact ⟨⟨op, token⟩ :: xs, rfl, List.forall_mem_cons.2 ⟨seen, ops⟩,
        run_cons.2 ⟨t, first, run⟩⟩

/-! ## Placeholders and strings -/

/-- The value of an option is a quoted text or a number, and no other expression. -/
theorem optionValue_eq_ok {s s' : State} {v : OptionValue} :
    optionValue lex s = .ok (v, s') ↔
      ∃ x : ValueToken, x.value = v ∧ x.Fits ∧ Run lex s [x.step] s' := by
  rw [optionValue, peek_bind]
  -- whatever is ahead, if it is no quoted text, then a number is tried
  have number : ∀ {k : Option Terminal}, s.kind? = k → (∀ q, k ≠ some (.quoted q)) →
      ((do return .number (← takeNumber lex Expect.afterNumber) : Parser OptionValue) s =
          .ok (v, s') ↔ ∃ x : ValueToken, x.value = v ∧ x.Fits ∧ Run lex s [x.step] s') := by
    intro k seen notQuoted
    simp only [bind_eq_ok, takeNumber_eq_ok, pure_eq_ok]
    constructor
    · rintro ⟨_, t, ⟨token, kind, isNumber, rfl, run⟩, rfl, rfl⟩
      exact ⟨.number kind token, rfl, isNumber, run⟩
    · rintro ⟨x, rfl, fits, run⟩
      cases x with
      | quoted q token =>
        rw [run.kind?_eq] at seen
        exact absurd (seen.symm.trans (congrArg some fits)) (notQuoted q)
      | number kind token => exact ⟨_, s', ⟨token, kind, fits, rfl, run⟩, rfl, rfl⟩
  cases seen : s.kind? with
  | none => exact number seen (by simp)
  | some k =>
    cases k with
    | quoted q =>
      simp only [bind_eq_ok, takeQuoted_eq_ok, pure_eq_ok]
      constructor
      · rintro ⟨_, t, ⟨token, kind, isQuoted, rfl, run⟩, rfl, rfl⟩
        exact ⟨.quoted kind token, rfl, isQuoted, run⟩
      · rintro ⟨x, rfl, fits, run⟩
        cases x with
        | quoted kind token => exact ⟨_, s', ⟨token, kind, fits, rfl, run⟩, rfl, rfl⟩
        | number kind token =>
          rw [run.kind?_eq] at seen
          exact absurd (seen.symm.trans (congrArg some fits)) (by simp)
    | _ => exact number seen (by simp)

/-- An option, once its name is taken and an equal sign is ahead. -/
theorem placeholderOption_eq_ok {t : Token} {s s' : State} {o : PlaceholderOption} :
    placeholderOption lex (word t) s = .ok (o, s') ↔
      ∃ (equal : Token) (x : ValueToken), equal.kind = .symbol .equal ∧ x.Fits ∧
        o = ⟨⟨t.start, optionStop x.value⟩, word t, x.value⟩ ∧
        Run lex s [⟨equal, Expect.optionValue⟩, x.step] s' := by
  simp only [placeholderOption, bind_eq_ok, takeSymbol_eq_ok, optionValue_eq_ok, pure_eq_ok]
  constructor
  · rintro ⟨equal, u, ⟨kind, first⟩, _, v, ⟨x, rfl, fits, second⟩, rfl, rfl⟩
    exact ⟨equal, x, kind, fits, rfl, run_cons.2 ⟨u, first, second⟩⟩
  · rintro ⟨equal, x, kind, fits, rfl, run⟩
    obtain ⟨u, first, second⟩ := run_cons.1 run
    exact ⟨equal, u, ⟨kind, first⟩, x.value, s', ⟨x, rfl, fits, second⟩, rfl, rfl⟩

/-- The steps between two states write options and an expression, as between the braces of a
placeholder. -/
def HoleBetween (lex : Scanner) (s s' : State)
    (found : List PlaceholderOption × Surface.Expr) : Prop :=
  ∃ hole : Hole, (hole.options.map OptionPiece.option, hole.body.expr) = found ∧
    (∀ o ∈ hole.options, o.Fits) ∧ Script .expr .placeholder hole.body.expr hole.body.steps ∧
    Run lex s hole.steps s'

/-- One more option in front. -/
theorem HoleBetween.cons {t : Token} {after : Expect} {s u v s' : State} {o : PlaceholderOption}
    {os : List PlaceholderOption} {e : Surface.Expr} (name : optionName? t.kind = some after)
    (first : Run lex s [⟨t, after⟩] u) (ho : placeholderOption lex (word t) u = .ok (o, v))
    (rest : HoleBetween lex v s' (os, e)) : HoleBetween lex s s' (o :: os, e) := by
  obtain ⟨equal, x, kind, fits, rfl, second⟩ := placeholderOption_eq_ok.1 ho
  obtain ⟨hole, eq, all, script, run⟩ := rest
  cases eq
  refine ⟨⟨⟨⟨t, after⟩, equal, x⟩ :: hole.options, hole.body⟩, rfl,
    List.forall_mem_cons.2 ⟨⟨name, kind, fits⟩, all⟩, script, ?_⟩
  rw [Hole.steps, List.flatMap_cons, List.append_assoc, run_append]
  exact ⟨v, run_cons.2 ⟨u, first, second⟩, run⟩

/-- A word that is no option's name starts the expression. -/
theorem HoleBetween.started (forward : Forward lex) (hexpr : ReadsExpr lex expr)
    (hoperand : ReadsOperand lex operand) {name : Step} {s t u s' : State} {e : Surface.Expr}
    {xs : List Step} {found : List PlaceholderOption × Surface.Expr}
    (first : Run lex s [name] t) (run : Run lex t xs u)
    (script : Script .primary .placeholder e (name :: xs)) (closed : endsOpen e = false)
    (h : (do return ([], ← chainFrom lex operand (← accessed lex expr e)) :
      Parser (List PlaceholderOption × Surface.Expr)) u = .ok (found, s')) :
    HoleBetween lex s s' found := by
  simp only [bind_eq_ok, pure_eq_ok] at h
  obtain ⟨subject, w, hsubject, whole, v, hwhole, rfl, rfl⟩ := h
  obtain ⟨ys, runAccesses, accessedScript, access, exhausted⟩ :=
    accessed_reads forward hexpr hsubject script (by simp [closed])
  obtain ⟨zs, runChain, chainScript, -⟩ :=
    chainFrom_reads forward hoperand hwhole (.unsigned accessedScript) access exhausted
  refine ⟨⟨[], ⟨whole, _⟩⟩, rfl, by simp, chainScript, ?_⟩
  rw [Hole.steps, List.flatMap_nil, List.nil_append]
  exact run_append.2 ⟨w, run_append.2 ⟨u, run_cons.2 ⟨t, first, run⟩, runAccesses⟩, runChain⟩

/-- Where no option's name stands there is only an expression. -/
theorem HoleBetween.plain (hexpr : ReadsExpr lex expr) {s s' : State}
    {found : List PlaceholderOption × Surface.Expr}
    (unnamed : ∀ k, s.kind? = some k → optionName? k = none)
    (h : (do return ([], ← expr) : Parser (List PlaceholderOption × Surface.Expr)) s =
      .ok (found, s')) : HoleBetween lex s s' found := by
  simp only [bind_eq_ok, pure_eq_ok] at h
  obtain ⟨e, t, he, rfl, rfl⟩ := h
  obtain ⟨xs, run, script, -⟩ := hexpr s _ e he
  refine ⟨⟨[], ⟨e, xs⟩⟩, rfl, by simp, script.atPlace .placeholder ?_, run⟩
  intro x hx
  obtain ⟨x', xs', rfl⟩ := List.exists_cons_of_ne_nil script.ne_nil
  cases hx
  exact unnamed _ run.kind?_eq

/-- Options are told from the start of the expression by the equal sign behind their name. -/
theorem placeholderUpTo_reads (forward : Forward lex) (hexpr : ReadsExpr lex expr)
    (hoperand : ReadsOperand lex operand) {n : Nat} {s s' : State}
    {found : List PlaceholderOption × Surface.Expr}
    (h : placeholderUpTo lex expr operand n s = .ok (found, s')) :
    HoleBetween lex s s' found := by
  induction n generalizing s found with
  | zero => exact (reject_ne_ok.1 h).elim
  | succ n ih =>
    have continueWith : ∀ {t : Token} {after : Expect} {u : State},
        optionName? t.kind = some after → Run lex s [⟨t, after⟩] u →
        (do
          let option ← placeholderOption lex (word t)
          let others ← placeholderUpTo lex expr operand n
          return (option :: others.1, others.2) :
            Parser (List PlaceholderOption × Surface.Expr)) u = .ok (found, s') →
        HoleBetween lex s s' found := by
      intro t after u name first h
      obtain ⟨o, v, ho, h⟩ := bind_eq_ok.1 h
      obtain ⟨others, w, hrest, h⟩ := bind_eq_ok.1 h
      obtain ⟨rfl, rfl⟩ := pure_eq_ok.1 h
      exact .cons name first ho (ih hrest)
    -- a truth value is an option's name before an equal sign, and an expression elsewhere
    have truthValue : ∀ value : Bool, s.kind? = some (.keyword (truth value)) →
        (do
          let name := word (← shift lex Expect.afterPlaceholderTruth)
          if ← sees (.symbol .equal) then
            let option ← placeholderOption lex name
            let others ← placeholderUpTo lex expr operand n
            return (option :: others.1, others.2)
          else
            return ([], ← chainFrom lex operand (← accessed lex expr (.boolean name.range value)))
            : Parser (List PlaceholderOption × Surface.Expr)) s = .ok (found, s') →
        HoleBetween lex s s' found := by
      intro value seen h
      obtain ⟨t, u, ht, h⟩ := bind_eq_ok.1 h
      have first := shift_eq_ok.1 ht
      rw [first.kind?_eq] at seen
      have kind := Option.some.inj seen
      rw [sees_bind] at h
      rcases h with ⟨-, h⟩ | ⟨-, h⟩
      · exact continueWith (by rw [kind]; cases value <;> rfl) first h
      · exact .started forward hexpr hoperand first (.nil u) (.boolean t value kind) rfl h
    rw [placeholderUpTo, peek_bind] at h
    cases seen : s.kind? with
    | none => rw [seen] at h; exact .plain hexpr (by simp [seen]) h
    | some k =>
      rw [seen] at h
      cases k with
      | name =>
        obtain ⟨w, u, hw, h⟩ := bind_eq_ok.1 h
        obtain ⟨t, kind, rfl, first⟩ := takeName_eq_ok.1 hw
        rw [sees_bind] at h
        rcases h with ⟨-, h⟩ | ⟨-, h⟩
        · exact continueWith (by rw [kind]; rfl) first h
        · obtain ⟨e, v, he, h⟩ := bind_eq_ok.1 h
          obtain ⟨xs, run, script, closed⟩ := afterName_reads hexpr .placeholder kind he
          exact .started forward hexpr hoperand first run script closed h
      | keyword k =>
        cases k with
        | kwTrue => exact truthValue true seen h
        | kwFalse => exact truthValue false seen h
        | _ => exact .plain hexpr (by simp [seen, optionName?]) h
      | _ => exact .plain hexpr (by simp [seen, optionName?]) h

theorem placeholder_reads (forward : Forward lex) (hexpr : ReadsExpr lex expr)
    (hoperand : ReadsOperand lex operand) {s s' : State} {p : Surface.Placeholder}
    (h : placeholder lex expr operand s = .ok (p, s')) :
    ∃ hole : Hole, hole.placeholder = p ∧ (∀ o ∈ hole.options, o.Fits) ∧
      Script .expr .placeholder hole.body.expr hole.body.steps ∧ Run lex s hole.steps s' := by
  rw [placeholder, remaining_bind] at h
  obtain ⟨found, t, hfound, h⟩ := bind_eq_ok.1 h
  obtain ⟨hole, rfl, fits, script, run⟩ := placeholderUpTo_reads forward hexpr hoperand hfound
  obtain ⟨rfl, rfl⟩ := pure_eq_ok.1 h
  exact ⟨hole, rfl, fits, script, run⟩

/-- The parts of a string or command. -/
theorem partsUpTo_reads (forward : Forward lex) (hexpr : ReadsExpr lex expr)
    (hoperand : ReadsOperand lex operand) (template : Template) {n : Nat} {s s' : State}
    {parts : List Surface.Part}
    (h : partsUpTo lex expr operand template.text template.opener template.afterText template.inside
      n s = .ok (parts, s')) :
    ∃ pieces : List PartPiece, pieces.map PartPiece.part = parts ∧
      (∀ p ∈ pieces, p.Fits template) ∧
      (∀ p ∈ pieces, ∀ x ∈ p.inner, Script .expr .placeholder x.expr x.steps) ∧
      Run lex s (pieces.flatMap (PartPiece.steps template)) s' := by
  induction n generalizing s parts with
  | zero =>
    obtain ⟨rfl, rfl⟩ := pure_eq_ok.1 h
    exact ⟨[], rfl, by simp, by simp, .nil s⟩
  | succ n ih =>
    rw [partsUpTo, sees_bind] at h
    rcases h with ⟨seen, h⟩ | ⟨-, h⟩
    · simp only [bind_eq_ok, shift_eq_ok, pure_eq_ok] at h
      obtain ⟨token, t, first, rest, u, hrest, rfl, rfl⟩ := h
      obtain ⟨pieces, rfl, fits, inner, run⟩ := ih hrest
      rw [first.kind?_eq] at seen
      exact ⟨.text token :: pieces, rfl, List.forall_mem_cons.2 ⟨Option.some.inj seen, fits⟩,
        List.forall_mem_cons.2 ⟨by simp [PartPiece.inner], inner⟩, run_cons.2 ⟨t, first, run⟩⟩
    · rw [sees_bind] at h
      rcases h with ⟨seen, h⟩ | ⟨-, h⟩
      · simp only [bind_eq_ok, shift_eq_ok, takeSymbol_eq_ok, pure_eq_ok] at h
        obtain ⟨opener, t, first, p, u, hp, close, v, ⟨kind, last⟩, rest, w, hrest, rfl, rfl⟩ := h
        obtain ⟨hole, rfl, options, script, runHole⟩ := placeholder_reads forward hexpr hoperand hp
        obtain ⟨pieces, rfl, fits, inner, run⟩ := ih hrest
        rw [first.kind?_eq] at seen
        refine ⟨.hole opener close hole :: pieces, rfl,
          List.forall_mem_cons.2 ⟨⟨Option.some.inj seen, kind, options⟩, fits⟩,
          List.forall_mem_cons.2 ⟨by simpa [PartPiece.inner], inner⟩, ?_⟩
        exact run_append.2 ⟨v, run_cons.2 ⟨t, first, run_append.2 ⟨u, runHole, last⟩⟩, run⟩
      · obtain ⟨rfl, rfl⟩ := pure_eq_ok.1 h
        exact ⟨[], rfl, by simp, by simp, .nil s⟩

theorem string_reads (forward : Forward lex) (hexpr : ReadsExpr lex expr)
    (hoperand : ReadsOperand lex operand) (place : Place) {q : Quote} {s s' : State}
    {e : Surface.Expr} (h : string lex expr operand q s = .ok (e, s')) :
    ∃ xs, Run lex s xs s' ∧ Script .primary place e xs ∧ endsOpen e = false := by
  obtain ⟨start, t, hstart, h⟩ := bind_eq_ok.1 h
  obtain ⟨kind, first⟩ := take_eq_ok.1 hstart
  rw [remaining_bind] at h
  simp only [bind_eq_ok, take_eq_ok, pure_eq_ok] at h
  obtain ⟨parts, u, hparts, close, v, ⟨kind', last⟩, rfl, rfl⟩ := h
  obtain ⟨pieces, rfl, fits, inner, run⟩ :=
    partsUpTo_reads forward hexpr hoperand (.string q) hparts
  exact ⟨_, run_cons.2 ⟨t, first, run_append.2 ⟨u, run, last⟩⟩,
    .string q start close pieces kind kind' fits inner, rfl⟩

/-! ## Operands and expressions -/

theorem primary_reads (forward : Forward lex) (hexpr : ReadsExpr lex expr)
    (hoperand : ReadsOperand lex operand) {s s' : State} {e : Surface.Expr}
    (h : primary lex expr operand s = .ok (e, s')) :
    ∃ xs, Run lex s xs s' ∧ Script .primary .plain e xs ∧
      (endsOpen e = true → Exhausted s') := by
  have closed : (∃ xs, Run lex s xs s' ∧ Script .primary .plain e xs ∧ endsOpen e = false) →
      ∃ xs, Run lex s xs s' ∧ Script .primary .plain e xs ∧
        (endsOpen e = true → Exhausted s') := by
    rintro ⟨xs, run, script, isClosed⟩
    exact ⟨xs, run, script, by simp [isClosed]⟩
  rw [primary, peek_bind] at h
  cases seen : s.kind? with
  | none => rw [seen] at h; exact (reject_ne_ok.1 h).elim
  | some k =>
    rw [seen] at h
    -- constructs of one token
    have word : ∀ {f : Token → Surface.Expr} {after : Expect},
        (do return f (← shift lex after) : Parser Surface.Expr) s = .ok (e, s') →
        ∃ t, t.kind = k ∧ f t = e ∧ Run lex s [⟨t, after⟩] s' := by
      intro f after h
      simp only [bind_eq_ok, shift_eq_ok, pure_eq_ok] at h
      obtain ⟨t, u, run, rfl, rfl⟩ := h
      rw [run.kind?_eq] at seen
      exact ⟨t, Option.some.inj seen, rfl, run⟩
    cases k with
    | keyword k =>
      cases k with
      | kwTrue =>
        obtain ⟨t, kind, rfl, run⟩ := word (f := fun t => .boolean t.range true) h
        exact closed ⟨_, run, .boolean t true kind, rfl⟩
      | kwFalse =>
        obtain ⟨t, kind, rfl, run⟩ := word (f := fun t => .boolean t.range false) h
        exact closed ⟨_, run, .boolean t false kind, rfl⟩
      | kwNone =>
        obtain ⟨t, kind, rfl, run⟩ := word (f := fun t => .null t.range) h
        exact closed ⟨_, run, .null t kind, rfl⟩
      | kwIf =>
        obtain ⟨xs, run, script, exhausted⟩ := choice_reads hexpr .plain h
        exact ⟨xs, run, script, fun _ => exhausted⟩
      | _ => exact (reject_ne_ok.1 h).elim
    | number k =>
      simp only [bind_eq_ok, takeNumber_eq_ok, pure_eq_ok] at h
      obtain ⟨_, u, ⟨t, kind, isNumber, rfl, run⟩, rfl, rfl⟩ := h
      exact closed ⟨_, run, .number kind t isNumber, rfl⟩
    | mark q => exact closed (string_reads forward hexpr hoperand .plain h)
    | symbol k =>
      cases k with
      | bracketOpen => exact closed (array_reads hexpr .plain h)
      | parenOpen => exact closed (parenthesized_reads hexpr .plain h)
      | braceOpen => exact closed (map_reads hexpr .plain h)
      | _ => exact (reject_ne_ok.1 h).elim
    | name =>
      obtain ⟨w, u, hw, h⟩ := bind_eq_ok.1 h
      obtain ⟨t, kind, rfl, first⟩ := takeName_eq_ok.1 hw
      obtain ⟨xs, run, script, isClosed⟩ := afterName_reads hexpr .plain kind h
      exact closed ⟨_, run_cons.2 ⟨u, first, run⟩, script, isClosed⟩
    | _ => exact (reject_ne_ok.1 h).elim

theorem operandWith_reads (forward : Forward lex) (hexpr : ReadsExpr lex expr)
    (hoperand : ReadsOperand lex operand) : ReadsOperand lex (operandWith lex expr operand) := by
  intro s s' e h
  rw [operandWith, remaining_bind] at h
  simp only [bind_eq_ok] at h
  obtain ⟨signs, t, hsigns, p, u, hp, subject, v, hsubject, h⟩ := h
  obtain ⟨written, rfl, ops, runSigns⟩ := signsUpTo_reads hsigns
  obtain ⟨xs, runPrimary, script, exhausted⟩ := primary_reads forward hexpr hoperand hp
  obtain ⟨ys, runAccesses, accessedScript, access, exhausted'⟩ :=
    accessed_reads forward hexpr hsubject script exhausted
  have run := run_append.2 ⟨u, runPrimary, runAccesses⟩
  cases written with
  | nil =>
    obtain ⟨rfl, rfl⟩ := pure_eq_ok.1 h
    obtain rfl := run_nil.1 runSigns
    exact ⟨_, run, .unsigned accessedScript, access, exhausted'⟩
  | cons x written =>
    obtain ⟨rfl, rfl⟩ := pure_eq_ok.1 h
    exact ⟨_, run_append.2 ⟨t, runSigns, run⟩,
      .signed (x :: written) (List.cons_ne_nil _ _) ops accessedScript, access, exhausted'⟩

end Rules

/-- However deep they may nest, operands and expressions are read as scripts. -/
theorem reads (forward : Forward lex) (n : Nat) :
    ReadsOperand lex (operand lex n) ∧ ReadsExpr lex (exprUpTo lex n) := by
  induction n with
  | zero =>
    refine ⟨fun s s' e h => ?_, fun s s' e h => ?_⟩
    · rw [operand] at h
      exact (reject_ne_ok.1 h).elim
    · rw [exprUpTo] at h
      exact (reject_ne_ok.1 h).elim
  | succ n ih =>
    obtain ⟨hoperand, hexpr⟩ := ih
    constructor
    · intro s s' e h
      rw [operand] at h
      exact operandWith_reads forward hexpr hoperand s s' e h
    · intro s s' e h
      rw [exprUpTo] at h
      obtain ⟨first, t, hfirst, h⟩ := bind_eq_ok.1 h
      obtain ⟨xs, run, script, access, exhausted⟩ := hoperand s t first hfirst
      obtain ⟨ys, run', chain, rest⟩ :=
        chainFrom_reads forward hoperand h script access exhausted
      exact ⟨xs ++ ys, run_append.2 ⟨t, run, run'⟩, chain, rest⟩

/-- An expression is read as a script, as far as it goes. -/
theorem expr_reads (forward : Forward lex) : ReadsExpr lex (expr lex) := by
  intro s s' e h
  rw [expr, remaining_bind] at h
  exact (reads forward _).2 s s' e h

end Wdl.Parser
