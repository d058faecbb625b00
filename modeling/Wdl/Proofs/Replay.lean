import Wdl.Proofs.Reading

/-!
# Wdl.Proofs.Replay -- a script that runs is read

Where the steps of a script can be taken, the parser takes them, whatever the scanner: it has no
choice at any token, the script forbids what the parser would read in another way, and as many
rounds as there are characters left are enough for every loop. All that must be known of the text
behind an expression is that it does not go on with it.

* `Unclaimed s`, `Settled s` and `settles t` say what may be ahead: nothing that makes more of a
  name, nothing that goes on with an expression, a terminal that does neither.
* `accessedBy` and `chainedWith` are surface forms with a list of accesses or links that may be
  empty. A script is taken apart with them by `Script.accessed_cases` and `Script.expr_cases`.
* `manyUpTo_replays`, `commaList_replays` and `closedList_replays` are about lists; `ReplaysItem` is
  what they ask of an item.
* `ReplaysExpr lex n p` and `ReplaysOperand lex n p` are the specifications of the two parsers that
  call each other, for scripts of at most `n` steps. The length is the measure of the induction:
  what is inside a rule is written by fewer steps than the rule.
* `placeholderWord_replays` is the delicate case, in which the first word of an expression stands
  where the name of an option might.
* `replays` is the induction, and `expr_replays` the result.
-/

namespace Wdl.Parser

open Surface

variable {lex : Scanner} {α β : Type}

/-! ## What may follow

What is ahead behind a script decides whether the parser stops there. A name is the one operand that
may be made more of, by an opening bracket, or by an equal sign in a placeholder. -/

/-- Nothing is ahead that makes more of a name: an application, a struct literal, or an option. -/
def Unclaimed (s : State) : Prop :=
  s.kind? ≠ some (.symbol .parenOpen) ∧ s.kind? ≠ some (.symbol .braceOpen) ∧
    s.kind? ≠ some (.symbol .equal)

/-- Nothing is ahead that goes on with an expression or its last word. -/
def Settled (s : State) : Prop := Unclaimed s ∧ Exhausted s

/-- A terminal that no expression goes on with. -/
def settles : Terminal → Bool
  | .symbol .parenOpen | .symbol .braceOpen | .symbol .equal => false
  | k => !startsAccessor k && (binaryOp? k).isNone

/-- A terminal that settles expressions leaves nothing to go on with. -/
theorem settled_of_kind {s : State} {k : Terminal} (kind : s.kind? = some k)
    (h : settles k = true) : Settled s := by
  unfold Settled Unclaimed Exhausted NoAccess
  rw [kind]
  refine ⟨⟨?_, ?_, ?_⟩, ?_, ?_⟩
  · rintro ⟨⟩
    simp [settles] at h
  · rintro ⟨⟩
    simp [settles] at h
  · rintro ⟨⟩
    simp [settles] at h
  · unfold settles at h
    split at h <;> simp_all
  · unfold settles at h
    split at h <;> simp_all

/-- At the end of a text nothing is ahead. -/
theorem settled_of_end {s : State} (h : s.ahead = none) : Settled s := by
  simp [Settled, Unclaimed, Exhausted, NoAccess, State.kind?, h]

theorem settled_of_run {s s' : State} {x : Step} {xs : List Step} (run : Run lex s (x :: xs) s')
    (h : settles x.token.kind = true) : Settled s := settled_of_kind run.kind?_eq h

/-! ## Layers -/

/-- A primary with the accesses behind it, if there are any. -/
def accessedBy (e : Surface.Expr) : List Suffix → Surface.Expr
  | [] => e
  | a :: suffixes => .access e ((a :: suffixes).map Suffix.accessor)

/-- An operand with the operators and operands behind it, if there are any. -/
def chainedWith (e : Surface.Expr) : List Link → Surface.Expr
  | [] => e
  | l :: links => .chain e ((l :: links).map Link.link)

/-! ## Lists

A list has as many rounds as there are characters left, and every item takes one at least; so it is
enough that the items be no more than the steps (`length_le_length_flatMap`). -/

theorem length_le_flatMap {f : β → List Step} {qs : List β} {q : β} (h : q ∈ qs) :
    (f q).length ≤ (qs.flatMap f).length := by
  obtain ⟨as, bs, rfl⟩ := List.append_of_mem h
  simp
  omega

theorem length_le_length_flatMap {f : β → List Step} {qs : List β} (ne : ∀ q ∈ qs, f q ≠ []) :
    qs.length ≤ (qs.flatMap f).length := by
  induction qs with
  | nil => simp
  | cons q qs ih =>
    have first := List.length_pos_of_ne_nil (ne q (by simp))
    have rest := ih fun r hr => ne r (by simp [hr])
    rw [List.flatMap_cons, List.length_append, List.length_cons]
    omega

/-- An item is no longer than the list that it is in. -/
theorem More.length_le {after : Expect} {items : List (List Step)} {xs item : List Step}
    (h : More after items xs) (mem : item ∈ items) : item.length ≤ xs.length := by
  induction h with
  | nil => simp at mem
  | trailing comma _ => simp at mem
  | cons comma _ _ ih =>
    rcases List.mem_cons.1 mem with rfl | mem
    · simp
      omega
    · have := ih mem
      simp
      omega

theorem Separated.length_le {after : Expect} {items : List (List Step)} {xs item : List Step}
    (h : Separated after items xs) (mem : item ∈ items) : item.length ≤ xs.length := by
  cases h with
  | nil => simp at mem
  | cons more =>
    rcases List.mem_cons.1 mem with rfl | mem
    · simp
    · have := more.length_le mem
      simp
      omega

section Lists

variable {item : Parser α} {value : β → α} {steps : β → List Step}

/-- A loop reads items that start as they should. -/
theorem manyUpTo_replays {starts : Terminal → Bool} {qs : List β} {n : Nat} {s s' : State}
    (hitem : ∀ q ∈ qs, ∀ t u, Run lex t (steps q) u → item t = .ok (value q, u))
    (heads : ∀ q ∈ qs, ∃ x, (steps q).head? = some x ∧ starts x.token.kind = true)
    (enough : qs.length ≤ n) (run : Run lex s (qs.flatMap steps) s')
    (stop : s'.kind?.any starts = false) :
    manyUpTo starts item n s = .ok (qs.map value, s') := by
  induction qs generalizing n s with
  | nil =>
    obtain rfl := run_nil.1 run
    cases n with
    | zero => exact pure_eq_ok.2 ⟨rfl, rfl⟩
    | succ n =>
      rw [manyUpTo, peek_bind, stop]
      exact pure_eq_ok.2 ⟨rfl, rfl⟩
  | cons q qs ih =>
    obtain ⟨t, first, rest⟩ := run_append.1 run
    obtain ⟨x, head, start⟩ := heads q (by simp)
    cases n with
    | zero => simp at enough
    | succ n =>
      have seen : s.kind?.any starts = true := by
        obtain ⟨xs, eq⟩ : ∃ xs, steps q = x :: xs := List.head?_eq_some_iff.1 head
        rw [eq] at first
        simpa [first.kind?_eq] using start
      rw [manyUpTo, peek_bind, seen]
      exact bind_eq_ok.2 ⟨value q, t, hitem q (by simp) s t first, bind_eq_ok.2
        ⟨qs.map value, s', ih (fun r hr => hitem r (by simp [hr]))
          (fun r hr => heads r (by simp [hr]))
          (by simpa using enough) rest, pure_eq_ok.2 ⟨rfl, rfl⟩⟩⟩

/-- An item reads its steps wherever a comma or the end of the list follows. -/
def ReplaysItem (lex : Scanner) (close : Symbol) (item : Parser α) (value : β → α)
    (steps : β → List Step) (q : β) : Prop :=
  (∃ x, (steps q).head? = some x ∧ x.token.kind ≠ .symbol close) ∧
    ∀ t u, Run lex t (steps q) u →
      u.kind? = some (.symbol .comma) ∨ u.kind? = some (.symbol close) →
      item t = .ok (value q, u)

/-- The first token of some steps is what is ahead where they can be taken. -/
theorem kind?_of_head {s s' : State} {xs ys : List Step} {x : Step} (run : Run lex s (xs ++ ys) s')
    (head : xs.head? = some x) : s.kind? = some x.token.kind := by
  obtain ⟨zs, rfl⟩ := List.head?_eq_some_iff.1 head
  exact run.kind?_eq

/-- Behind an item there is a comma or the end of the list. -/
theorem more_kind? {close : Symbol} {after : Expect} {items : List (List Step)} {xs : List Step}
    {s s' : State} (more : More after items xs) (run : Run lex s xs s')
    (ends : s'.kind? = some (.symbol close)) :
    s.kind? = some (.symbol .comma) ∨ s.kind? = some (.symbol close) := by
  cases more with
  | nil =>
    obtain rfl := run_nil.1 run
    exact .inr ends
  | trailing comma kind => exact .inl (by rw [run.kind?_eq, kind])
  | cons comma kind _ => exact .inl (by rw [run.kind?_eq, kind])

/-- Commas are taken as long as the list goes on, and one more if it stands at the end. -/
theorem moreUpTo_replays {close : Symbol} (differs : close ≠ .comma) {after : Expect} {qs : List β}
    {xs : List Step} {n : Nat} {s s' : State}
    (hitem : ∀ q ∈ qs, ReplaysItem lex close item value steps q) (enough : xs.length ≤ n)
    (more : More after (qs.map steps) xs) (run : Run lex s xs s')
    (ends : s'.kind? = some (.symbol close)) :
    moreUpTo lex close after item n s = .ok (qs.map value, s') := by
  have unseen : s'.kind? ≠ some (.symbol .comma) := by
    rw [ends]
    simpa using differs
  -- a round takes the comma in front of an item, so the one at the end needs a round too
  induction qs generalizing n s xs with
  | nil =>
    cases more with
    | nil =>
      obtain rfl := run_nil.1 run
      cases n with
      | zero => exact pure_eq_ok.2 ⟨rfl, rfl⟩
      | succ n =>
        rw [moreUpTo, optionalSymbol_bind]
        exact .inr ⟨unseen, pure_eq_ok.2 ⟨rfl, rfl⟩⟩
    | trailing comma kind =>
      cases n with
      | zero => simp at enough
      | succ n =>
        rw [moreUpTo, optionalSymbol_bind]
        refine .inl ⟨comma, s', kind, run, ?_⟩
        rw [sees_bind]
        exact .inl ⟨ends, pure_eq_ok.2 ⟨rfl, rfl⟩⟩
  | cons q qs ih =>
    cases more with
    | @cons _ _ ys comma kind more =>
      cases n with
      | zero => simp at enough
      | succ n =>
        obtain ⟨t, first, rest⟩ := run_cons.1 run
        obtain ⟨u, runItem, rest'⟩ := run_append.1 rest
        obtain ⟨⟨x, head, other⟩, replays⟩ := hitem q (by simp)
        rw [moreUpTo, optionalSymbol_bind]
        refine .inl ⟨comma, t, kind, first, ?_⟩
        rw [sees_bind]
        refine .inr ⟨?_, ?_⟩
        · rw [kind?_of_head rest head]
          simpa using other
        · refine bind_eq_ok.2 ⟨value q, u, replays t u runItem (more_kind? more rest' ends), ?_⟩
          refine bind_eq_ok.2 ⟨qs.map value, s', ?_, pure_eq_ok.2 ⟨rfl, rfl⟩⟩
          exact ih (fun r hr => hitem r (by simp [hr])) (by simp at enough; omega) more rest'

/-- A list with commas reads its items up to the closing symbol. -/
theorem commaList_replays (forward : Forward lex) {close : Symbol} (differs : close ≠ .comma)
    {after : Expect} {qs : List β} {xs : List Step} {s s' : State}
    (hitem : ∀ q ∈ qs, ReplaysItem lex close item value steps q)
    (sep : Separated after (qs.map steps) xs) (run : Run lex s xs s')
    (ends : s'.kind? = some (.symbol close)) :
    commaList lex close after item s = .ok (qs.map value, s') := by
  rw [commaList, sees_bind]
  cases qs with
  | nil =>
    cases sep with
    | nil =>
      obtain rfl := run_nil.1 run
      exact .inl ⟨ends, pure_eq_ok.2 ⟨rfl, rfl⟩⟩
  | cons q qs =>
    cases sep with
    | @cons _ _ ys more =>
      obtain ⟨t, runItem, rest⟩ := run_append.1 run
      obtain ⟨⟨x, head, other⟩, replays⟩ := hitem q (by simp)
      refine .inr ⟨?_, ?_⟩
      · rw [kind?_of_head run head]
        simpa using other
      · refine bind_eq_ok.2 ⟨value q, t, replays s t runItem (more_kind? more rest ends), ?_⟩
        rw [remaining_bind]
        refine bind_eq_ok.2 ⟨qs.map value, s', ?_, pure_eq_ok.2 ⟨rfl, rfl⟩⟩
        have used := rest.length_add_left forward
        have left := t.left_le
        exact moreUpTo_replays differs (fun r hr => hitem r (by simp [hr])) (by omega) more rest
          ends

/-- A list with commas in front of its closing symbol is read, and then that symbol is. -/
theorem closedList_replays (forward : Forward lex) {close : Symbol} (differs : close ≠ .comma)
    {closer : Token} (closes : closer.kind = .symbol close) {after after' : Expect} {qs : List β}
    {xs : List Step} {s s' : State} (hitem : ∀ q ∈ qs, ReplaysItem lex close item value steps q)
    (sep : Separated after (qs.map steps) xs) (run : Run lex s (xs ++ [⟨closer, after'⟩]) s') :
    ∃ t : State, commaList lex close after item s = .ok (qs.map value, t) ∧
      t.kind? = some (.symbol close) ∧ takeSymbol lex close after' t = .ok (closer, s') := by
  obtain ⟨t, items, last⟩ := run_append.1 run
  have ends : t.kind? = some (.symbol close) := by rw [last.kind?_eq, closes]
  exact ⟨t, commaList_replays forward differs hitem sep items ends, ends,
    takeSymbol_eq_ok.2 ⟨closes, last⟩⟩

end Lists

/-! ## The rules, given the expressions inside

Each rule takes the tokens of its script one by one. A parser inside gets the steps of its part
together with what is ahead of it, which is a token of the rule or what is ahead of the whole. -/

/-- A parser of expressions reads every script of at most `n` steps. -/
def ReplaysExpr (lex : Scanner) (n : Nat) (p : Parser Surface.Expr) : Prop :=
  ∀ (s s' : State) (e : Surface.Expr) (xs : List Step), Script .expr .plain e xs →
    xs.length ≤ n → Run lex s xs s' → Settled s' → p s = .ok (e, s')

/-- A parser of operands reads every script of at most `n` steps. -/
def ReplaysOperand (lex : Scanner) (n : Nat) (p : Parser Surface.Expr) : Prop :=
  ∀ (s s' : State) (e : Surface.Expr) (xs : List Step), Script .operand .plain e xs →
    xs.length ≤ n → Run lex s xs s' → Unclaimed s' → NoAccess s' →
    (endsOpen e = true → Exhausted s') → p s = .ok (e, s')

section Rules

variable {expr operand : Parser Surface.Expr} {n : Nat}

/-- A member's name is read after a dot, an index between brackets. -/
theorem accessor_replays (hexpr : ReplaysExpr lex n expr) {a : Suffix} (fits : a.Fits)
    (inner : ∀ x ∈ a.inner, Script .expr .plain x.expr x.steps) (short : a.steps.length ≤ n)
    {s s' : State} (run : Run lex s a.steps s') :
    accessor lex expr s = .ok (a.accessor, s') := by
  rw [accessor, sees_bind]
  cases a with
  | member dot name =>
    obtain ⟨t, first, second⟩ := run_cons.1 run
    refine .inl ⟨by rw [run.kind?_eq]; exact congrArg some fits.1, ?_⟩
    exact bind_eq_ok.2 ⟨dot, t, shift_eq_ok.2 first, bind_eq_ok.2 ⟨word name, s',
      takeName_eq_ok.2 ⟨name, fits.2, rfl, second⟩, pure_eq_ok.2 ⟨rfl, rfl⟩⟩⟩
  | index bracket close x =>
    obtain ⟨t, first, rest⟩ := run_cons.1 run
    obtain ⟨u, body, last⟩ := run_append.1 rest
    refine .inr ⟨by rw [run.kind?_eq, fits.1]; decide, ?_⟩
    have settled := settled_of_run last (by rw [fits.2]; rfl)
    have length : x.steps.length ≤ n := by
      simp [Suffix.steps] at short
      omega
    have replayed := hexpr t u x.expr x.steps (inner x (by simp [Suffix.inner])) length body settled
    exact bind_eq_ok.2 ⟨bracket, t, takeSymbol_eq_ok.2 ⟨fits.1, first⟩, bind_eq_ok.2 ⟨x.expr, u,
      replayed, bind_eq_ok.2 ⟨close, s', takeSymbol_eq_ok.2 ⟨fits.2, last⟩,
      pure_eq_ok.2 ⟨rfl, rfl⟩⟩⟩⟩

/-- What starts an access is its first token. -/
theorem Suffix.head {a : Suffix α} (h : a.Fits) :
    ∃ x, a.steps.head? = some x ∧ startsAccessor x.token.kind = true := by
  cases a with
  | member dot name => exact ⟨_, rfl, by show startsAccessor dot.kind = true; rw [h.1]; rfl⟩
  | index bracket close x =>
    exact ⟨_, rfl, by show startsAccessor bracket.kind = true; rw [h.1]; rfl⟩

/-- The accesses behind a primary that is read. -/
theorem accessed_replays (forward : Forward lex) (hexpr : ReplaysExpr lex n expr)
    {subject : Surface.Expr} {suffixes : List Suffix} (fits : ∀ a ∈ suffixes, a.Fits)
    (inner : ∀ a ∈ suffixes, ∀ x ∈ a.inner, Script .expr .plain x.expr x.steps)
    (short : (suffixes.flatMap Suffix.steps).length ≤ n) {s s' : State}
    (run : Run lex s (suffixes.flatMap Suffix.steps) s') (stop : NoAccess s') :
    accessed lex expr subject s = .ok (accessedBy subject suffixes, s') := by
  have enough : suffixes.length ≤ s.cursor.rest.length + 1 := by
    have used := run.length_add_left forward
    have left := s.left_le
    have : suffixes.length ≤ (suffixes.flatMap Suffix.steps).length := by
      refine length_le_length_flatMap ?_
      intro a _
      exact a.steps_ne_nil
    omega
  have many : manyUpTo startsAccessor (accessor lex expr) (s.cursor.rest.length + 1) s =
      .ok (suffixes.map Suffix.accessor, s') := by
    refine manyUpTo_replays ?_ (fun a ha => Suffix.head (fits a ha)) enough run stop
    intro a ha t u runItem
    exact accessor_replays hexpr (fits a ha) (inner a ha)
      (Nat.le_trans (length_le_flatMap ha) short) runItem
  rw [accessed, Parser.many, bind_eq_ok]
  refine ⟨suffixes.map Suffix.accessor, s', remaining_bind.2 many, ?_⟩
  cases suffixes with
  | nil => exact pure_eq_ok.2 ⟨rfl, rfl⟩
  | cons a suffixes => exact pure_eq_ok.2 ⟨rfl, rfl⟩

/-! ### Items of lists -/

/-- A comma settles an expression, and so does the end of a list. -/
theorem settled_of_separator {close : Symbol} {s : State}
    (h : s.kind? = some (.symbol .comma) ∨ s.kind? = some (.symbol close))
    (closes : settles (.symbol close) = true) : Settled s := by
  rcases h with kind | kind
  · exact settled_of_kind kind rfl
  · exact settled_of_kind kind closes

/-- An expression does not start with a token that ends a list. -/
theorem Script.head_ne {level : Level} {place : Place} {e : Surface.Expr} {xs : List Step}
    (h : Script level place e xs) {k : Terminal} (closes : Parser.startsExpr k = false) :
    ∃ x, xs.head? = some x ∧ x.token.kind ≠ k := by
  obtain ⟨x, head, starts, -⟩ := h.startsExpr
  refine ⟨x, head, ?_⟩
  rintro rfl
  rw [closes] at starts
  cases starts

theorem item_replays (hexpr : ReplaysExpr lex n expr) {close : Symbol}
    (closes : settles (.symbol close) = true) (differs : startsExpr (.symbol close) = false)
    {x : Piece} (script : Script .expr .plain x.expr x.steps) (short : x.steps.length ≤ n) :
    ReplaysItem lex close expr Piece.expr Piece.steps x :=
  ⟨script.head_ne differs, fun t u run ends =>
    hexpr t u x.expr x.steps script short run (settled_of_separator ends closes)⟩

/-- An item of a map is read up to the comma or brace behind its value. -/
theorem mapItem_replays (hexpr : ReplaysExpr lex n expr) {i : ItemPiece}
    (colon : i.colon.kind = .symbol .colon) (key : Script .expr .plain i.key.expr i.key.steps)
    (value : Script .expr .plain i.value.expr i.value.steps) (short : i.steps.length ≤ n) :
    ReplaysItem lex .braceClose (mapItem lex expr) ItemPiece.item ItemPiece.steps i := by
  have lengths : i.key.steps.length ≤ n ∧ i.value.steps.length ≤ n := by
    simp [ItemPiece.steps] at short
    omega
  constructor
  · obtain ⟨x, head, other⟩ := key.head_ne (k := .symbol .braceClose) rfl
    exact ⟨x, by rw [ItemPiece.steps, List.head?_append, head]; rfl, other⟩
  · intro s s' run ends
    obtain ⟨t, runKey, rest⟩ := run_append.1 run
    obtain ⟨u, runColon, runValue⟩ := run_cons.1 rest
    have settledKey := settled_of_run rest (by rw [colon]; rfl)
    have settledValue := settled_of_separator ends rfl
    exact bind_eq_ok.2 ⟨i.key.expr, t, hexpr _ _ _ _ key lengths.1 runKey settledKey,
      bind_eq_ok.2 ⟨i.colon, u, takeSymbol_eq_ok.2 ⟨colon, runColon⟩,
      bind_eq_ok.2 ⟨i.value.expr, s', hexpr _ _ _ _ value lengths.2 runValue settledValue,
      pure_eq_ok.2 ⟨rfl, rfl⟩⟩⟩⟩

/-- A member of a struct is told by its first token to have a name or a quoted text for its key. -/
theorem structMember_replays (hexpr : ReplaysExpr lex n expr) {m : MemberPiece}
    (key : m.key.Fits) (colon : m.colon.kind = .symbol .colon)
    (value : Script .expr .plain m.value.expr m.value.steps) (short : m.steps.length ≤ n) :
    ReplaysItem lex .braceClose (structMember lex expr) MemberPiece.member MemberPiece.steps m := by
  have length : m.value.steps.length ≤ n := by
    simp [MemberPiece.steps] at short
    omega
  obtain ⟨k, colonToken, x⟩ := m
  constructor
  · refine ⟨k.step, rfl, ?_⟩
    cases k with
    | word t => show t.kind ≠ _; rw [key]; simp
    | quoted q t => show t.kind ≠ _; rw [key]; simp
  · intro s s' run ends
    obtain ⟨t, runKey, rest⟩ := run_cons.1 run
    obtain ⟨u, runColon, runValue⟩ := run_cons.1 rest
    have settled := settled_of_separator ends rfl
    have replayed := hexpr u s' x.expr x.steps value length runValue settled
    rw [structMember, sees_bind]
    cases k with
    | word token =>
      refine .inl ⟨by rw [run.kind?_eq]; exact congrArg some key, ?_⟩
      exact bind_eq_ok.2 ⟨word token, t, takeName_eq_ok.2 ⟨token, key, rfl, runKey⟩,
        bind_eq_ok.2 ⟨colonToken, u, takeSymbol_eq_ok.2 ⟨colon, runColon⟩,
        bind_eq_ok.2 ⟨x.expr, s', replayed, pure_eq_ok.2 ⟨rfl, rfl⟩⟩⟩⟩
    | quoted q token =>
      have isQuoted : token.kind = .quoted q := key
      refine .inr ⟨?_, ?_⟩
      · rw [run.kind?_eq]
        show some token.kind ≠ _
        rw [isQuoted]
        simp
      · exact bind_eq_ok.2 ⟨quoted token, t, takeQuoted_eq_ok.2 ⟨token, q, key, rfl, runKey⟩,
          bind_eq_ok.2 ⟨colonToken, u, takeSymbol_eq_ok.2 ⟨colon, runColon⟩,
          bind_eq_ok.2 ⟨x.expr, s', replayed, pure_eq_ok.2 ⟨rfl, rfl⟩⟩⟩⟩

/-! ### Primaries -/

/-- A name in front of an opening parenthesis is applied to arguments. -/
theorem apply_replays (forward : Forward lex) (hexpr : ReplaysExpr lex n expr)
    {t paren close : Token}
    {arguments : List Piece} {xs : List Step} (kind : paren.kind = .symbol .parenOpen)
    (kind' : close.kind = .symbol .parenClose)
    (inner : ∀ x ∈ arguments, Script .expr .plain x.expr x.steps)
    (sep : Separated Expect.expr (arguments.map Piece.steps) xs) (short : xs.length ≤ n)
    {s s' : State}
    (run : Run lex s (⟨paren, Expect.exprOrParen⟩ :: (xs ++ [⟨close, Expect.afterOperand⟩])) s') :
    afterName lex expr (word t) s =
      .ok (.apply ⟨t.start, close.stop⟩ (word t) (arguments.map Piece.expr), s') := by
  obtain ⟨u, first, rest⟩ := run_cons.1 run
  obtain ⟨v, listed, -, closed⟩ := closedList_replays forward (by decide) kind'
    (fun x hx => item_replays hexpr rfl rfl (inner x hx)
      (Nat.le_trans (sep.length_le (List.mem_map_of_mem hx)) short)) sep rest
  rw [afterName, sees_bind]
  refine .inl ⟨by rw [run.kind?_eq, kind], ?_⟩
  exact bind_eq_ok.2 ⟨paren, u, shift_eq_ok.2 first, bind_eq_ok.2 ⟨_, v, listed, bind_eq_ok.2
    ⟨close, s', closed, pure_eq_ok.2 ⟨rfl, rfl⟩⟩⟩⟩

/-- A name in front of an opening brace starts a struct. -/
theorem struct_replays (forward : Forward lex) (hexpr : ReplaysExpr lex n expr)
    {t brace close : Token}
    {ms : List MemberPiece} {xs : List Step} (kind : brace.kind = .symbol .braceOpen)
    (kind' : close.kind = .symbol .braceClose)
    (fits : ∀ m ∈ ms, m.key.Fits ∧ m.colon.kind = .symbol .colon)
    (inner : ∀ m ∈ ms, Script .expr .plain m.value.expr m.value.steps)
    (sep : Separated Expect.members (ms.map MemberPiece.steps) xs) (short : xs.length ≤ n)
    {s s' : State}
    (run : Run lex s (⟨brace, Expect.members⟩ :: (xs ++ [⟨close, Expect.afterOperand⟩])) s') :
    afterName lex expr (word t) s =
      .ok (.struct ⟨t.start, close.stop⟩ (word t) (ms.map MemberPiece.member), s') := by
  obtain ⟨u, first, rest⟩ := run_cons.1 run
  obtain ⟨v, listed, -, closed⟩ := closedList_replays forward (by decide) kind'
    (fun m hm => structMember_replays hexpr (fits m hm).1 (fits m hm).2 (inner m hm)
      (Nat.le_trans (sep.length_le (List.mem_map_of_mem hm)) short)) sep rest
  rw [afterName, sees_bind]
  refine .inr ⟨by rw [run.kind?_eq, kind]; decide, ?_⟩
  rw [sees_bind]
  refine .inl ⟨by rw [run.kind?_eq, kind], ?_⟩
  exact bind_eq_ok.2 ⟨brace, u, shift_eq_ok.2 first, bind_eq_ok.2 ⟨_, v, listed, bind_eq_ok.2
    ⟨close, s', closed, pure_eq_ok.2 ⟨rfl, rfl⟩⟩⟩⟩

/-- A name stands alone where nothing is ahead that makes more of it. -/
theorem name_replays {t : Token} {s : State} (h : Unclaimed s) :
    afterName lex expr (word t) s = .ok (.name (word t), s) := by
  rw [afterName, sees_bind]
  refine .inr ⟨h.1, ?_⟩
  rw [sees_bind]
  exact .inr ⟨h.2.1, pure_eq_ok.2 ⟨rfl, rfl⟩⟩

theorem array_replays (forward : Forward lex) (hexpr : ReplaysExpr lex n expr)
    {bracket close : Token} {items : List Piece} {xs : List Step}
    (kind : bracket.kind = .symbol .bracketOpen) (kind' : close.kind = .symbol .bracketClose)
    (inner : ∀ x ∈ items, Script .expr .plain x.expr x.steps)
    (sep : Separated Expect.exprOrBracket (items.map Piece.steps) xs) (short : xs.length ≤ n)
    {s s' : State}
    (run :
      Run lex s (⟨bracket, Expect.exprOrBracket⟩ :: (xs ++ [⟨close, Expect.afterOperand⟩])) s') :
    array lex expr s =
      .ok (.array ⟨bracket.start, close.stop⟩ (items.map Piece.expr), s') := by
  obtain ⟨u, first, rest⟩ := run_cons.1 run
  obtain ⟨v, listed, -, closed⟩ := closedList_replays forward (by decide) kind'
    (fun x hx => item_replays hexpr rfl rfl (inner x hx)
      (Nat.le_trans (sep.length_le (List.mem_map_of_mem hx)) short)) sep rest
  exact bind_eq_ok.2 ⟨bracket, u, takeSymbol_eq_ok.2 ⟨kind, first⟩, bind_eq_ok.2 ⟨_, v, listed,
    bind_eq_ok.2 ⟨close, s', closed, pure_eq_ok.2 ⟨rfl, rfl⟩⟩⟩⟩

theorem map_replays (forward : Forward lex) (hexpr : ReplaysExpr lex n expr)
    {brace close : Token} {items : List ItemPiece} {xs : List Step}
    (kind : brace.kind = .symbol .braceOpen) (kind' : close.kind = .symbol .braceClose)
    (colons : ∀ i ∈ items, i.colon.kind = .symbol .colon)
    (keys : ∀ i ∈ items, Script .expr .plain i.key.expr i.key.steps)
    (values : ∀ i ∈ items, Script .expr .plain i.value.expr i.value.steps)
    (sep : Separated Expect.exprOrBrace (items.map ItemPiece.steps) xs) (short : xs.length ≤ n)
    {s s' : State}
    (run : Run lex s (⟨brace, Expect.exprOrBrace⟩ :: (xs ++ [⟨close, Expect.afterOperand⟩])) s') :
    map lex expr s = .ok (.map ⟨brace.start, close.stop⟩ (items.map ItemPiece.item), s') := by
  obtain ⟨u, first, rest⟩ := run_cons.1 run
  obtain ⟨v, listed, -, closed⟩ := closedList_replays forward (by decide) kind'
    (fun i hi => mapItem_replays hexpr (colons i hi) (keys i hi) (values i hi)
      (Nat.le_trans (sep.length_le (List.mem_map_of_mem hi)) short)) sep rest
  exact bind_eq_ok.2 ⟨brace, u, takeSymbol_eq_ok.2 ⟨kind, first⟩, bind_eq_ok.2 ⟨_, v, listed,
    bind_eq_ok.2 ⟨close, s', closed, pure_eq_ok.2 ⟨rfl, rfl⟩⟩⟩⟩

/-- One expression in parentheses is a group, since no comma is behind it. -/
theorem group_replays (hexpr : ReplaysExpr lex n expr) {paren close : Token} {e : Surface.Expr}
    {xs : List Step} (kind : paren.kind = .symbol .parenOpen)
    (kind' : close.kind = .symbol .parenClose) (script : Script .expr .plain e xs)
    (short : xs.length ≤ n) {s s' : State}
    (run : Run lex s (⟨paren, Expect.expr⟩ :: (xs ++ [⟨close, Expect.afterOperand⟩])) s') :
    parenthesized lex expr s = .ok (.group ⟨paren.start, close.stop⟩ e, s') := by
  obtain ⟨t, first, rest⟩ := run_cons.1 run
  obtain ⟨u, body, last⟩ := run_append.1 rest
  have replayed := hexpr t u e xs script short body (settled_of_run last (by rw [kind']; rfl))
  refine bind_eq_ok.2 ⟨paren, t, takeSymbol_eq_ok.2 ⟨kind, first⟩,
    bind_eq_ok.2 ⟨e, u, replayed, ?_⟩⟩
  rw [optionalSymbol_bind]
  refine .inr ⟨by rw [last.kind?_eq, kind']; decide, ?_⟩
  exact bind_eq_ok.2 ⟨close, s', takeSymbol_eq_ok.2 ⟨kind', last⟩, pure_eq_ok.2 ⟨rfl, rfl⟩⟩

/-- Two expressions in parentheses are a pair. -/
theorem pair_replays (hexpr : ReplaysExpr lex n expr) {paren comma close : Token}
    {l r : Surface.Expr} {xs ys : List Step} (kind : paren.kind = .symbol .parenOpen)
    (kindComma : comma.kind = .symbol .comma) (kind' : close.kind = .symbol .parenClose)
    (left : Script .expr .plain l xs) (right : Script .expr .plain r ys)
    (short : xs.length ≤ n ∧ ys.length ≤ n) {s s' : State}
    (run : Run lex s (⟨paren, Expect.expr⟩ ::
      (xs ++ ⟨comma, Expect.expr⟩ :: (ys ++ [⟨close, Expect.afterOperand⟩]))) s') :
    parenthesized lex expr s = .ok (.pair ⟨paren.start, close.stop⟩ l r, s') := by
  obtain ⟨t, first, rest⟩ := run_cons.1 run
  obtain ⟨u, runLeft, rest⟩ := run_append.1 rest
  obtain ⟨v, runComma, rest'⟩ := run_cons.1 rest
  obtain ⟨w, runRight, last⟩ := run_append.1 rest'
  have replayedLeft := hexpr t u l xs left short.1 runLeft
    (settled_of_run rest (by rw [kindComma]; rfl))
  have replayedRight := hexpr v w r ys right short.2 runRight
    (settled_of_run last (by rw [kind']; rfl))
  refine bind_eq_ok.2 ⟨paren, t, takeSymbol_eq_ok.2 ⟨kind, first⟩, bind_eq_ok.2 ⟨l, u, replayedLeft,
    ?_⟩⟩
  rw [optionalSymbol_bind]
  refine .inl ⟨comma, v, kindComma, runComma, ?_⟩
  exact bind_eq_ok.2 ⟨r, w, replayedRight, bind_eq_ok.2 ⟨close, s',
    takeSymbol_eq_ok.2 ⟨kind', last⟩, pure_eq_ok.2 ⟨rfl, rfl⟩⟩⟩

/-- The alternative of a choice is read as far as it goes, hence settled by what is ahead of the
choice. -/
theorem choice_replays (hexpr : ReplaysExpr lex n expr) {kwIf kwThen kwElse : Token}
    {a b c : Surface.Expr} {xs ys zs : List Step} (kindIf : kwIf.kind = .keyword .kwIf)
    (kindThen : kwThen.kind = .keyword .kwThen) (kindElse : kwElse.kind = .keyword .kwElse)
    (ha : Script .expr .plain a xs) (hb : Script .expr .plain b ys) (hc : Script .expr .plain c zs)
    (short : xs.length ≤ n ∧ ys.length ≤ n ∧ zs.length ≤ n) {s s' : State}
    (run : Run lex s (⟨kwIf, Expect.expr⟩ ::
      (xs ++ ⟨kwThen, Expect.expr⟩ :: (ys ++ ⟨kwElse, Expect.expr⟩ :: zs))) s')
    (settled : Settled s') :
    choice lex expr s = .ok (.choice ⟨kwIf.start, c.range.stop⟩ a b c, s') := by
  obtain ⟨t, runIf, rest⟩ := run_cons.1 run
  obtain ⟨u, runA, rest⟩ := run_append.1 rest
  obtain ⟨v, runThen, rest'⟩ := run_cons.1 rest
  obtain ⟨w, runB, rest'⟩ := run_append.1 rest'
  obtain ⟨x, runElse, runC⟩ := run_cons.1 rest'
  have replayedA := hexpr t u a xs ha short.1 runA (settled_of_run rest (by rw [kindThen]; rfl))
  have replayedB := hexpr v w b ys hb short.2.1 runB (settled_of_run rest' (by rw [kindElse]; rfl))
  have replayedC := hexpr x s' c zs hc short.2.2 runC settled
  exact bind_eq_ok.2 ⟨kwIf, t, takeKeyword_eq_ok.2 ⟨kindIf, runIf⟩, bind_eq_ok.2 ⟨a, u, replayedA,
    bind_eq_ok.2 ⟨kwThen, v, takeKeyword_eq_ok.2 ⟨kindThen, runThen⟩, bind_eq_ok.2 ⟨b, w, replayedB,
    bind_eq_ok.2 ⟨kwElse, x, takeKeyword_eq_ok.2 ⟨kindElse, runElse⟩, bind_eq_ok.2 ⟨c, s',
    replayedC, pure_eq_ok.2 ⟨rfl, rfl⟩⟩⟩⟩⟩⟩⟩

/-! ### Operators -/

/-- An operator is no access, and makes nothing more of a name. -/
theorem binaryOp_of_kind {k : Terminal} {op : BinaryOp} (h : binaryOp? k = some op) :
    startsAccessor k = false ∧ k ≠ .symbol .parenOpen ∧ k ≠ .symbol .braceOpen ∧
      k ≠ .symbol .equal := by
  cases k with
  | symbol k => cases k <;> simp_all [binaryOp?, BinaryOp.ofSymbol?, startsAccessor]
  | _ => simp [binaryOp?] at h

/-- Where an operator is ahead, a word is complete and has no accesses. -/
theorem unclaimed_of_operator {s : State} {k : Terminal} {op : BinaryOp} (kind : s.kind? = some k)
    (h : binaryOp? k = some op) : Unclaimed s ∧ NoAccess s := by
  obtain ⟨access, paren, brace, equal⟩ := binaryOp_of_kind h
  unfold Unclaimed NoAccess
  rw [kind]
  exact ⟨⟨by simpa using paren, by simpa using brace, by simpa using equal⟩, access⟩

/-- A chain is read link by link: behind each operand but the last there is an operator. -/
theorem chainUpTo_replays (hoperand : ReplaysOperand lex n operand) {links : List Link} {m : Nat}
    {s s' : State} (ops : ∀ l ∈ links, binaryOp? l.sign.kind = some l.op)
    (operands : ∀ l ∈ links, Script .operand .plain l.operand.expr l.operand.steps)
    (closed : ∀ x ∈ (links.map fun l => l.operand.expr).dropLast, endsOpen x = false)
    (short : (links.flatMap Link.steps).length ≤ n) (enough : links.length ≤ m)
    (run : Run lex s (links.flatMap Link.steps) s') (settled : Settled s') :
    chainUpTo lex operand m s = .ok (links.map Link.link, s') := by
  induction links generalizing m s with
  | nil =>
    obtain rfl := run_nil.1 run
    cases m with
    | zero => exact pure_eq_ok.2 ⟨rfl, rfl⟩
    | succ m =>
      rw [chainUpTo, peek_bind, settled.2.2]
      exact pure_eq_ok.2 ⟨rfl, rfl⟩
  | cons l links ih =>
    cases m with
    | zero => simp at enough
    | succ m =>
      obtain ⟨t, runLink, rest⟩ := run_append.1 run
      obtain ⟨u, first, body⟩ := run_cons.1 runLink
      rw [List.flatMap_cons, List.length_append] at short
      have length : l.operand.steps.length ≤ n := by
        simp [Link.steps] at short
        omega
      -- behind this operand comes another operator, or the end of the chain
      have follows : Unclaimed t ∧ NoAccess t ∧ (endsOpen l.operand.expr = true → Exhausted t) := by
        cases links with
        | nil =>
          obtain rfl := run_nil.1 rest
          exact ⟨settled.1, settled.2.1, fun _ => settled.2⟩
        | cons l' links =>
          obtain ⟨unclaimed, access⟩ := unclaimed_of_operator rest.kind?_eq (ops l' (by simp))
          refine ⟨unclaimed, access, fun isOpen => ?_⟩
          rw [closed _ (by simp)] at isOpen
          cases isOpen
      have closed' : ∀ x ∈ (links.map fun l => l.operand.expr).dropLast, endsOpen x = false := by
        intro x hx
        cases links with
        | nil => simp at hx
        | cons l' links => exact closed x (List.mem_cons_of_mem _ hx)
      have replayed := hoperand u t _ _ (operands l (by simp)) length body follows.1 follows.2.1
        follows.2.2
      have others := ih (fun x hx => ops x (by simp [hx])) (fun x hx => operands x (by simp [hx]))
        closed' (by omega) (by simpa using enough) rest
      have seen : s.kind?.bind binaryOp? = some l.op := by
        rw [run.kind?_eq]
        exact ops l (by simp)
      rw [chainUpTo, peek_bind, seen]
      exact bind_eq_ok.2 ⟨l.sign, u, shift_eq_ok.2 first, bind_eq_ok.2 ⟨l.operand.expr, t, replayed,
        bind_eq_ok.2 ⟨links.map Link.link, s', others, pure_eq_ok.2 ⟨rfl, rfl⟩⟩⟩⟩

/-- The chain that an operand starts, once the operand is read. -/
theorem chainFrom_replays (forward : Forward lex) (hoperand : ReplaysOperand lex n operand)
    {first : Surface.Expr} {links : List Link} {s s' : State}
    (ops : ∀ l ∈ links, binaryOp? l.sign.kind = some l.op)
    (operands : ∀ l ∈ links, Script .operand .plain l.operand.expr l.operand.steps)
    (closed : ∀ x ∈ (links.map fun l => l.operand.expr).dropLast, endsOpen x = false)
    (short : (links.flatMap Link.steps).length ≤ n)
    (run : Run lex s (links.flatMap Link.steps) s') (settled : Settled s') :
    chainFrom lex operand first s = .ok (chainedWith first links, s') := by
  have enough : links.length ≤ s.cursor.rest.length + 1 := by
    have used := run.length_add_left forward
    have left := s.left_le
    have : links.length ≤ (links.flatMap Link.steps).length :=
      length_le_length_flatMap fun l _ => List.cons_ne_nil _ _
    omega
  have replayed := chainUpTo_replays hoperand ops operands closed short enough run settled
  rw [chainFrom, remaining_bind]
  refine bind_eq_ok.2 ⟨links.map Link.link, s', replayed, ?_⟩
  cases links with
  | nil => exact pure_eq_ok.2 ⟨rfl, rfl⟩
  | cons l links => exact pure_eq_ok.2 ⟨rfl, rfl⟩

/-- Prefix operators are read as long as one is ahead. -/
theorem signsUpTo_replays {signs : List Sign} {m : Nat} {s s' : State}
    (ops : ∀ x ∈ signs, unaryOp? x.token.kind = some x.op) (enough : signs.length ≤ m)
    (run : Run lex s (signs.map Sign.step) s') (stop : s'.kind?.bind unaryOp? = none) :
    signsUpTo lex m s = .ok (signs.map Sign.sign, s') := by
  induction signs generalizing m s with
  | nil =>
    obtain rfl := run_nil.1 run
    cases m with
    | zero => exact pure_eq_ok.2 ⟨rfl, rfl⟩
    | succ m =>
      rw [signsUpTo, peek_bind, stop]
      exact pure_eq_ok.2 ⟨rfl, rfl⟩
  | cons x signs ih =>
    cases m with
    | zero => simp at enough
    | succ m =>
      obtain ⟨t, first, rest⟩ := run_cons.1 run
      have others := ih (fun y hy => ops y (by simp [hy])) (by simpa using enough) rest
      have seen : s.kind?.bind unaryOp? = some x.op := by
        rw [run.kind?_eq]
        exact ops x (by simp)
      rw [signsUpTo, peek_bind, seen]
      exact bind_eq_ok.2 ⟨x.token, t, shift_eq_ok.2 first, bind_eq_ok.2 ⟨signs.map Sign.sign, s',
        others, pure_eq_ok.2 ⟨rfl, rfl⟩⟩⟩

/-! ### Layers of a script -/

/-- A script of an accessed operand is that of its primary, then those of its accesses. -/
theorem Script.accessed_cases {place : Place} {e : Surface.Expr} {xs : List Step}
    (h : Script .accessed place e xs) :
    ∃ (e₀ : Surface.Expr) (xs₀ : List Step) (suffixes : List Suffix),
      Script .primary place e₀ xs₀ ∧ xs = xs₀ ++ suffixes.flatMap Suffix.steps ∧
      e = accessedBy e₀ suffixes ∧
      (∀ a ∈ suffixes, a.Fits) ∧
      (∀ a ∈ suffixes, ∀ x ∈ a.inner, Script .expr .plain x.expr x.steps) ∧
      (suffixes ≠ [] → endsOpen e₀ = false) := by
  cases h with
  | bare h => exact ⟨e, xs, [], h, by simp, rfl, by simp, by simp, by simp⟩
  | @accessed _ e₀ xs₀ suffixes ne closed h fits inner =>
    obtain ⟨a, suffixes, rfl⟩ := List.exists_cons_of_ne_nil ne
    exact ⟨e₀, xs₀, a :: suffixes, h, rfl, rfl, fits, inner, fun _ => closed⟩

/-- A script of an expression is that of its first operand, then those of its links. -/
theorem Script.expr_cases {place : Place} {e : Surface.Expr} {xs : List Step}
    (h : Script .expr place e xs) :
    ∃ (e₀ : Surface.Expr) (xs₀ : List Step) (links : List Link),
      Script .operand place e₀ xs₀ ∧ xs = xs₀ ++ links.flatMap Link.steps ∧
      e = chainedWith e₀ links ∧
      (∀ l ∈ links, binaryOp? l.sign.kind = some l.op) ∧
      (∀ l ∈ links, Script .operand .plain l.operand.expr l.operand.steps) ∧
      (∀ x ∈ (links.map fun l => l.operand.expr).dropLast, endsOpen x = false) ∧
      (links ≠ [] → endsOpen e₀ = false) := by
  cases h with
  | single h => exact ⟨e, xs, [], h, by simp, rfl, by simp, by simp, by simp, by simp⟩
  | @chain _ e₀ xs₀ links ne h ops operands closed =>
    obtain ⟨l, links, rfl⟩ := List.exists_cons_of_ne_nil ne
    refine ⟨e₀, xs₀, l :: links, h, rfl, rfl, ops, operands, ?_, ?_⟩
    · exact fun x hx => closed x (List.mem_cons_of_mem _ hx)
    · exact fun _ => closed e₀ (by simp)

/-- What may follow an accessed operand may follow its primary, where its accesses start. -/
theorem follows_primary {e₀ e : Surface.Expr} {suffixes : List Suffix} {s s' : State}
    (run : Run lex s (suffixes.flatMap Suffix.steps) s')
    (eq : e = accessedBy e₀ suffixes)
    (fits : ∀ a ∈ suffixes, a.Fits) (closed : suffixes ≠ [] → endsOpen e₀ = false)
    (unclaimed : Unclaimed s') (exhausted : endsOpen e = true → Exhausted s') :
    Unclaimed s ∧ (endsOpen e₀ = true → s = s' ∧ Exhausted s') := by
  cases suffixes with
  | nil =>
    obtain rfl := run_nil.1 run
    subst eq
    exact ⟨unclaimed, fun isOpen => ⟨rfl, exhausted isOpen⟩⟩
  | cons a suffixes =>
    obtain ⟨x, head, starts⟩ := Suffix.head (fits a (by simp))
    have kind := kind?_of_head run head
    have other : ∀ {k : Symbol}, startsAccessor (.symbol k) = false →
        s.kind? ≠ some (.symbol k) := by
      intro k starts' seen
      rw [Option.some.inj (kind.symm.trans seen), starts'] at starts
      cases starts
    refine ⟨⟨other rfl, other rfl, other rfl⟩, fun isOpen => ?_⟩
    · rw [closed (by simp)] at isOpen
      cases isOpen

/-- What may follow an expression may follow its first operand, where its links start. -/
theorem follows_operand {e₀ : Surface.Expr} {links : List Link} {s s' : State}
    (run : Run lex s (links.flatMap Link.steps) s')
    (ops : ∀ l ∈ links, binaryOp? l.sign.kind = some l.op)
    (closed : links ≠ [] → endsOpen e₀ = false) (settled : Settled s') :
    Unclaimed s ∧ NoAccess s ∧ (endsOpen e₀ = true → Exhausted s) := by
  cases links with
  | nil =>
    obtain rfl := run_nil.1 run
    exact ⟨settled.1, settled.2.1, fun _ => settled.2⟩
  | cons l links =>
    obtain ⟨unclaimed, access⟩ := unclaimed_of_operator run.kind?_eq (ops l (by simp))
    refine ⟨unclaimed, access, fun isOpen => ?_⟩
    rw [closed (by simp)] at isOpen
    cases isOpen

/-! ### Placeholders and strings -/

/-- The first word of a placeholder's expression is read with the rest of its primary. -/
theorem placeholderWord_replays (forward : Forward lex) (hexpr : ReplaysExpr lex n expr)
    {e : Surface.Expr} {x : Step} {xs : List Step}
    (script : Script .primary .placeholder e (x :: xs))
    (named : optionName? x.token.kind ≠ none) (short : (x :: xs).length ≤ n + 1) {m : Nat}
    {s t s' : State} {found : List PlaceholderOption × Surface.Expr}
    (run : Run lex s (x :: xs) t) (unclaimed : Unclaimed t)
    (finish : (do return ([], ← chainFrom lex operand (← accessed lex expr e)) :
      Parser (List PlaceholderOption × Surface.Expr)) t = .ok (found, s')) :
    placeholderUpTo lex expr operand (m + 1) s = .ok (found, s') := by
  have other : ∀ {k : Terminal}, x.token.kind = k → optionName? k = none → False := by
    intro k kind none
    rw [kind] at named
    exact named none
  rw [placeholderUpTo, peek_bind, run.kind?_eq]
  obtain ⟨u, first, rest⟩ := run_cons.1 run
  -- a word is taken before it shows that it names no option: no equals sign is behind it
  have name : ∀ {token : Token}, token.kind = .name → x = ⟨token, Expect.afterPlaceholderName⟩ →
      u.kind? ≠ some (.symbol .equal) → afterName lex expr (word token) u = .ok (e, t) →
      (do
        let name ← takeName lex Expect.afterPlaceholderName
        if ← sees (.symbol .equal) then
          let option ← placeholderOption lex name
          let others ← placeholderUpTo lex expr operand m
          return (option :: others.1, others.2)
        else
          let primary ← afterName lex expr name
          return ([], ← chainFrom lex operand (← accessed lex expr primary)) :
            Parser (List PlaceholderOption × Surface.Expr)) s = .ok (found, s') := by
    rintro token kind rfl unequal after
    refine bind_eq_ok.2 ⟨word token, u, takeName_eq_ok.2 ⟨token, kind, rfl, first⟩, ?_⟩
    rw [sees_bind]
    exact .inr ⟨unequal, bind_eq_ok.2 ⟨e, t, after, finish⟩⟩
  have short' : xs.length ≤ n := by simpa using short
  cases script with
  | boolean token value kind =>
    obtain rfl := run_nil.1 rest
    have after : (do
        let name := word (← shift lex Expect.afterPlaceholderTruth)
        if ← sees (.symbol .equal) then
          let option ← placeholderOption lex name
          let others ← placeholderUpTo lex expr operand m
          return (option :: others.1, others.2)
        else return ([], ← chainFrom lex operand (← accessed lex expr (.boolean name.range value)))
          : Parser (List PlaceholderOption × Surface.Expr)) s = .ok (found, s') := by
      refine bind_eq_ok.2 ⟨token, u, shift_eq_ok.2 first, ?_⟩
      rw [sees_bind]
      exact .inr ⟨unclaimed.2.2, finish⟩
    rw [kind]
    cases value with
    | true => exact after
    | false => exact after
  | name token kind =>
    obtain rfl := run_nil.1 rest
    rw [kind]
    exact name kind rfl unclaimed.2.2 (name_replays unclaimed)
  | apply token paren close arguments kind kind' kind'' inner sep =>
    rw [kind]
    refine name kind rfl (by rw [rest.kind?_eq, kind']; decide) ?_
    exact apply_replays forward hexpr kind' kind'' inner sep (by simp at short'; omega) rest
  | struct token brace close ms kind kind' kind'' fits inner sep =>
    rw [kind]
    refine name kind rfl (by rw [rest.kind?_eq, kind']; decide) ?_
    exact struct_replays forward hexpr kind' kind'' fits inner sep (by simp at short'; omega) rest
  | null token kind => exact (other kind rfl).elim
  | number k token kind => exact (other kind rfl).elim
  | string q start close parts kind _ _ _ => exact (other kind rfl).elim
  | array bracket close items kind _ _ _ => exact (other kind rfl).elim
  | group paren close kind _ _ => exact (other kind rfl).elim
  | pair paren comma close kind _ _ _ _ => exact (other kind rfl).elim
  | map brace close items kind _ _ _ _ _ => exact (other kind rfl).elim
  | choice kwIf kwThen kwElse kind _ _ _ _ _ => exact (other kind rfl).elim

/-- The expression of a placeholder is read behind its options. -/
theorem placeholderBody_replays (forward : Forward lex) (hexpr : ReplaysExpr lex n expr)
    (hoperand : ReplaysOperand lex n operand) {e : Surface.Expr} {xs : List Step}
    (script : Script .expr .placeholder e xs) (short : xs.length ≤ n) {m : Nat} {s s' : State}
    (run : Run lex s xs s') (settled : Settled s') :
    placeholderUpTo lex expr operand (m + 1) s = .ok (([], e), s') := by
  obtain ⟨x, xs, rfl⟩ := List.exists_cons_of_ne_nil script.ne_nil
  by_cases named : optionName? x.token.kind = none
  · have plain := script.atPlace .plain (by rintro y ⟨⟩; exact named)
    have replayed := hexpr s s' e _ plain short run settled
    have whole : (do return ([], ← expr) : Parser (List PlaceholderOption × Surface.Expr)) s =
        .ok (([], e), s') := bind_eq_ok.2 ⟨e, s', replayed, pure_eq_ok.2 ⟨rfl, rfl⟩⟩
    rw [placeholderUpTo, peek_bind, run.kind?_eq]
    cases kind : x.token.kind with
    | keyword k => cases k <;> first | exact whole | simp [kind, optionName?] at named
    | name => simp [kind, optionName?] at named
    | _ => exact whole
  · obtain ⟨e₁, xs₁, links, operandScript, eqs, rfl, ops, operands, closed, closed₁⟩ :=
      script.expr_cases
    cases operandScript with
    | signed signs ne ops' _ =>
      -- a prefix operator names no option
      obtain ⟨sign, signs, rfl⟩ := List.exists_cons_of_ne_nil ne
      have op := ops' sign (by simp)
      cases eqs
      exfalso
      apply named
      cases kind : sign.token.kind with
      | symbol k => simp [Sign.step, kind, optionName?]
      | _ => simp [kind, unaryOp?] at op
    | unsigned accessedScript =>
      obtain ⟨e₀, xs₀, suffixes, primaryScript, rfl, rfl, fits, inner, closed₀⟩ :=
        accessedScript.accessed_cases
      obtain ⟨y, ys, rfl⟩ := List.exists_cons_of_ne_nil primaryScript.ne_nil
      rw [List.cons_append, List.cons_append] at eqs
      cases eqs
      have lengths := short
      simp only [List.length_cons, List.length_append] at lengths
      rw [← List.cons_append, run_append] at run
      obtain ⟨u, runOperand, runLinks⟩ := run
      rw [← List.cons_append, run_append] at runOperand
      obtain ⟨t, runPrimary, runSuffixes⟩ := runOperand
      obtain ⟨unclaimed, access, exhausted⟩ := follows_operand runLinks ops closed₁ settled
      have follows := follows_primary runSuffixes rfl fits closed₀ unclaimed exhausted
      refine placeholderWord_replays forward hexpr primaryScript named
        (by simp only [List.length_cons]; omega) runPrimary follows.1 ?_
      exact bind_eq_ok.2 ⟨_, u, accessed_replays forward hexpr fits inner (by omega) runSuffixes
        access, bind_eq_ok.2 ⟨_, s', chainFrom_replays forward hoperand ops operands closed
        (by omega) runLinks settled, pure_eq_ok.2 ⟨rfl, rfl⟩⟩⟩

/-- Options are read one by one, then the expression. -/
theorem placeholderUpTo_replays (forward : Forward lex) (hexpr : ReplaysExpr lex n expr)
    (hoperand : ReplaysOperand lex n operand) {hole : Hole} (fits : ∀ o ∈ hole.options, o.Fits)
    (script : Script .expr .placeholder hole.body.expr hole.body.steps)
    (short : hole.body.steps.length ≤ n) {m : Nat} (enough : hole.options.length ≤ m)
    {s s' : State} (run : Run lex s hole.steps s') (settled : Settled s') :
    placeholderUpTo lex expr operand (m + 1) s =
      .ok ((hole.options.map OptionPiece.option, hole.body.expr), s') := by
  obtain ⟨options, body⟩ := hole
  induction options generalizing m s with
  | nil => exact placeholderBody_replays forward hexpr hoperand script short run settled
  | cons o options ih =>
    cases m with
    | zero => simp at enough
    | succ m =>
      rw [Hole.steps, List.flatMap_cons, List.append_assoc] at run
      obtain ⟨t, runOption, rest⟩ := run_append.1 run
      obtain ⟨u, first, value⟩ := run_cons.1 runOption
      obtain ⟨named, equal, valueFits⟩ := fits o (by simp)
      have others := ih (fun o ho => fits o (by simp [ho])) script short (by simpa using enough)
        rest
      have seen : u.kind? = some (.symbol .equal) := by
        rw [value.kind?_eq]
        exact congrArg some equal
      -- whichever token names the option, the equals sign behind it leads to the same rest
      have continueWith : (do
          let option ← placeholderOption lex (word o.name.token)
          let others ← placeholderUpTo lex expr operand (m + 1)
          return (option :: others.1, others.2) :
            Parser (List PlaceholderOption × Surface.Expr)) u =
          .ok (((o :: options).map OptionPiece.option, body.expr), s') :=
        bind_eq_ok.2 ⟨o.option, t, placeholderOption_eq_ok.2
          ⟨o.equal, o.value, equal, valueFits, rfl, value⟩,
          bind_eq_ok.2 ⟨_, s', others, pure_eq_ok.2 ⟨rfl, rfl⟩⟩⟩
      have truthValue : o.name.after = Expect.afterPlaceholderTruth → ∀ value : Bool, (do
          let name := word (← shift lex Expect.afterPlaceholderTruth)
          if ← sees (.symbol .equal) then
            let option ← placeholderOption lex name
            let others ← placeholderUpTo lex expr operand (m + 1)
            return (option :: others.1, others.2)
          else
            return ([], ← chainFrom lex operand (← accessed lex expr (.boolean name.range value)))
            : Parser (List PlaceholderOption × Surface.Expr)) s =
          .ok (((o :: options).map OptionPiece.option, body.expr), s') := by
        intro after value
        refine bind_eq_ok.2 ⟨o.name.token, u, shift_eq_ok.2 (after ▸ first), ?_⟩
        rw [sees_bind]
        exact .inl ⟨seen, continueWith⟩
      rw [placeholderUpTo, peek_bind, first.kind?_eq]
      cases kind : o.name.token.kind with
      | name =>
        rw [kind] at named
        have after : o.name.after = Expect.afterPlaceholderName := (Option.some.inj named).symm
        refine bind_eq_ok.2 ⟨word o.name.token, u,
          takeName_eq_ok.2 ⟨o.name.token, kind, rfl, after ▸ first⟩, ?_⟩
        rw [sees_bind]
        exact .inl ⟨seen, continueWith⟩
      | keyword k =>
        rw [kind] at named
        cases k with
        | kwTrue => exact truthValue (Option.some.inj named).symm true
        | kwFalse => exact truthValue (Option.some.inj named).symm false
        | _ => cases named
      | _ => rw [kind] at named; cases named

/-- A placeholder has its range from its first token to its last. -/
theorem placeholder_replays (forward : Forward lex) (hexpr : ReplaysExpr lex n expr)
    (hoperand : ReplaysOperand lex n operand) {hole : Hole} (fits : ∀ o ∈ hole.options, o.Fits)
    (script : Script .expr .placeholder hole.body.expr hole.body.steps)
    (short : hole.body.steps.length ≤ n) {s s' : State} (run : Run lex s hole.steps s')
    (settled : Settled s') :
    placeholder lex expr operand s = .ok (hole.placeholder, s') := by
  have enough : hole.options.length ≤ s.cursor.rest.length := by
    have used := run.length_add_left forward
    have left := s.left_le
    have options : hole.options.length ≤ (hole.options.flatMap OptionPiece.steps).length :=
      length_le_length_flatMap fun o _ => List.cons_ne_nil _ _
    have body := List.length_pos_of_ne_nil script.ne_nil
    rw [Hole.steps, List.length_append] at used
    omega
  rw [placeholder, remaining_bind]
  exact bind_eq_ok.2 ⟨_, s', placeholderUpTo_replays forward hexpr hoperand fits script short enough
    run settled, pure_eq_ok.2 ⟨rfl, rfl⟩⟩

/-- The parts of a template are told apart by their first tokens. -/
theorem partsUpTo_replays (forward : Forward lex) (hexpr : ReplaysExpr lex n expr)
    (hoperand : ReplaysOperand lex n operand) {template : Template}
    (differs : template.opener ≠ template.text) {parts : List PartPiece}
    (fits : ∀ p ∈ parts, p.Fits template)
    (inner : ∀ p ∈ parts, ∀ x ∈ p.inner, Script .expr .placeholder x.expr x.steps)
    (short : (parts.flatMap (PartPiece.steps template)).length ≤ n) {m : Nat}
    (enough : parts.length ≤ m) {s s' : State}
    (run : Run lex s (parts.flatMap (PartPiece.steps template)) s')
    (stop : s'.kind? ≠ some template.text ∧ s'.kind? ≠ some template.opener) :
    partsUpTo lex expr operand template.text template.opener template.afterText template.inside m
      s = .ok (parts.map PartPiece.part, s') := by
  -- a round takes one part, so the bound only has to be that of the number of parts
  induction parts generalizing m s with
  | nil =>
    obtain rfl := run_nil.1 run
    cases m with
    | zero => exact pure_eq_ok.2 ⟨rfl, rfl⟩
    | succ m =>
      rw [partsUpTo, sees_bind]
      refine .inr ⟨stop.1, ?_⟩
      rw [sees_bind]
      exact .inr ⟨stop.2, pure_eq_ok.2 ⟨rfl, rfl⟩⟩
  | cons p parts ih =>
    cases m with
    | zero => simp at enough
    | succ m =>
      obtain ⟨t, runPart, rest⟩ := run_append.1 run
      rw [List.flatMap_cons, List.length_append] at short
      have others := ih (fun q hq => fits q (by simp [hq])) (fun q hq => inner q (by simp [hq]))
        (by omega) (by simpa using enough) rest
      have partFits := fits p (by simp)
      rw [partsUpTo, sees_bind]
      cases p with
      | text token =>
        refine .inl ⟨by rw [runPart.kind?_eq]; exact congrArg some partFits, ?_⟩
        exact bind_eq_ok.2 ⟨token, t, shift_eq_ok.2 runPart, bind_eq_ok.2 ⟨_, s', others,
          pure_eq_ok.2 ⟨rfl, rfl⟩⟩⟩
      | hole opener close h =>
        obtain ⟨kind, kind', options⟩ := partFits
        obtain ⟨u, first, body⟩ := run_cons.1 runPart
        obtain ⟨v, runHole, last⟩ := run_append.1 body
        have script := inner (.hole opener close h) (by simp) h.body (by simp [PartPiece.inner])
        have length : h.body.steps.length ≤ n := by
          simp only [PartPiece.steps, Hole.steps, List.length_cons, List.length_append] at short
          omega
        have replayed := placeholder_replays forward hexpr hoperand options script length runHole
          (settled_of_run last (by rw [kind']; rfl))
        have seen : s.kind? = some template.opener := by
          rw [runPart.kind?_eq]
          exact congrArg some kind
        refine .inr ⟨by rw [seen]; simpa using differs, ?_⟩
        rw [sees_bind]
        refine .inl ⟨seen, ?_⟩
        exact bind_eq_ok.2 ⟨opener, u, shift_eq_ok.2 first, bind_eq_ok.2 ⟨h.placeholder, v,
          replayed, bind_eq_ok.2 ⟨close, t, takeSymbol_eq_ok.2 ⟨kind', last⟩,
            bind_eq_ok.2 ⟨_, s', others,
          pure_eq_ok.2 ⟨rfl, rfl⟩⟩⟩⟩⟩

/-- A string is read part by part up to its closing mark. -/
theorem string_replays (forward : Forward lex) (hexpr : ReplaysExpr lex n expr)
    (hoperand : ReplaysOperand lex n operand) {q : Quote} {start close : Token}
    {parts : List PartPiece} (kind : start.kind = .mark q) (kind' : close.kind = .mark q)
    (fits : ∀ p ∈ parts, p.Fits (.string q))
    (inner : ∀ p ∈ parts, ∀ x ∈ p.inner, Script .expr .placeholder x.expr x.steps)
    (short : (parts.flatMap (PartPiece.steps (.string q))).length ≤ n) {s s' : State}
    (run : Run lex s (⟨start, Expect.inString q⟩ ::
      (parts.flatMap (PartPiece.steps (.string q)) ++ [⟨close, Expect.afterOperand⟩])) s') :
    string lex expr operand q s =
      .ok (.string ⟨start.start, close.stop⟩ (parts.map PartPiece.part), s') := by
  obtain ⟨t, first, rest⟩ := run_cons.1 run
  obtain ⟨u, runParts, last⟩ := run_append.1 rest
  have enough : parts.length ≤ t.cursor.rest.length + 1 := by
    have used := runParts.length_add_left forward
    have left := t.left_le
    have : parts.length ≤ (parts.flatMap (PartPiece.steps (.string q))).length := by
      refine length_le_length_flatMap ?_
      intro p _
      cases p <;> simp [PartPiece.steps]
    omega
  have stop : u.kind? = some (.mark q) := by
    rw [last.kind?_eq]
    exact congrArg some kind'
  have replayed := partsUpTo_replays forward hexpr hoperand
    (show (Template.string q).opener ≠ (Template.string q).text by simp [Template.string]) fits
    inner short enough runParts
    (by rw [stop]; simp [Template.string])
  refine bind_eq_ok.2 ⟨start, t, take_eq_ok.2 ⟨kind, first⟩, ?_⟩
  rw [remaining_bind]
  exact bind_eq_ok.2 ⟨_, u, replayed, bind_eq_ok.2 ⟨close, s', take_eq_ok.2 ⟨kind', last⟩,
    pure_eq_ok.2 ⟨rfl, rfl⟩⟩⟩

/-! ### Operands and expressions -/

/-- Which rule is tried depends on the first token alone, so there is one case for each way to write
a primary. -/
theorem primary_replays (forward : Forward lex) (hexpr : ReplaysExpr lex n expr)
    (hoperand : ReplaysOperand lex n operand) {e : Surface.Expr} {xs : List Step}
    (script : Script .primary .plain e xs) (short : xs.length ≤ n + 1) {s s' : State}
    (run : Run lex s xs s') (unclaimed : Unclaimed s')
    (exhausted : endsOpen e = true → Exhausted s') :
    primary lex expr operand s = .ok (e, s') := by
  rw [primary, peek_bind]
  -- the first token alone decides which construct is read
  cases script with
  | boolean t value kind =>
    have taken : ∀ value : Bool,
        (do return .boolean (← shift lex Expect.afterOperand).range value : Parser Surface.Expr) s =
          .ok (.boolean t.range value, s') := fun value =>
      bind_eq_ok.2 ⟨t, s', shift_eq_ok.2 run, pure_eq_ok.2 ⟨rfl, rfl⟩⟩
    rw [run.kind?_eq, kind]
    cases value with
    | true => exact taken true
    | false => exact taken false
  | null t kind =>
    rw [run.kind?_eq, kind]
    exact bind_eq_ok.2 ⟨t, s', shift_eq_ok.2 run, pure_eq_ok.2 ⟨rfl, rfl⟩⟩
  | number k t kind =>
    rw [run.kind?_eq, kind]
    exact bind_eq_ok.2 ⟨_, s', takeNumber_eq_ok.2 ⟨t, k, kind, rfl, run⟩, pure_eq_ok.2 ⟨rfl, rfl⟩⟩
  | name t kind =>
    rw [run.kind?_eq, kind]
    exact bind_eq_ok.2 ⟨word t, s', takeName_eq_ok.2 ⟨t, kind, rfl, run⟩, name_replays unclaimed⟩
  | string q start close parts kind kind' fits inner =>
    rw [run.kind?_eq, kind]
    simp only [List.length_cons, List.length_append] at short
    exact string_replays forward hexpr hoperand kind kind' fits inner (by omega) run
  | array bracket close items kind kind' inner sep =>
    rw [run.kind?_eq, kind]
    simp only [List.length_cons, List.length_append] at short
    exact array_replays forward hexpr kind kind' inner sep (by omega) run
  | group paren close kind kind' inner =>
    rw [run.kind?_eq, kind]
    simp only [List.length_cons, List.length_append] at short
    exact group_replays hexpr kind kind' inner (by omega) run
  | pair paren comma close kind kind' kind'' l r =>
    rw [run.kind?_eq, kind]
    simp only [List.length_cons, List.length_append] at short
    exact pair_replays hexpr kind kind' kind'' l r ⟨by omega, by omega⟩ run
  | map brace close items kind kind' colons keys values sep =>
    rw [run.kind?_eq, kind]
    simp only [List.length_cons, List.length_append] at short
    exact map_replays forward hexpr kind kind' colons keys values sep (by omega) run
  | choice kwIf kwThen kwElse kind kind' kind'' a b c =>
    rw [run.kind?_eq, kind]
    simp only [List.length_cons, List.length_append] at short
    exact choice_replays hexpr kind kind' kind'' a b c ⟨by omega, by omega, by omega⟩ run
      ⟨unclaimed, exhausted rfl⟩
  | apply t paren close arguments kind kind' kind'' inner sep =>
    rw [run.kind?_eq, kind]
    simp only [List.length_cons, List.length_append] at short
    obtain ⟨u, first, rest⟩ := run_cons.1 run
    exact bind_eq_ok.2 ⟨word t, u, takeName_eq_ok.2 ⟨t, kind, rfl, first⟩,
      apply_replays forward hexpr kind' kind'' inner sep (by omega) rest⟩
  | struct t brace close ms kind kind' kind'' fits inner sep =>
    rw [run.kind?_eq, kind]
    simp only [List.length_cons, List.length_append] at short
    obtain ⟨u, first, rest⟩ := run_cons.1 run
    exact bind_eq_ok.2 ⟨word t, u, takeName_eq_ok.2 ⟨t, kind, rfl, first⟩,
      struct_replays forward hexpr kind' kind'' fits inner sep (by omega) rest⟩

/-- What starts a primary is no prefix operator. -/
theorem unaryOp_of_startsPrimary {k : Terminal} (h : startsPrimary k = true) :
    unaryOp? k = none := by
  cases k with
  | symbol k => cases k <;> first | rfl | simp [startsPrimary] at h
  | _ => rfl

/-- An operand is read from its prefix operators to its accesses; a step more is allowed than
inside. -/
theorem operandWith_replays (forward : Forward lex) (hexpr : ReplaysExpr lex n expr)
    (hoperand : ReplaysOperand lex n operand) :
    ReplaysOperand lex (n + 1) (operandWith lex expr operand) := by
  -- an accessed operand behind signs that are read
  have accessed : ∀ (signs : List Sign) {e : Surface.Expr} {xs : List Step} {s t s' : State},
      Script .accessed .plain e xs → (signs.map Sign.step ++ xs).length ≤ n + 1 →
      Run lex s (signs.map Sign.step) t → Run lex t xs s' →
      (∀ x ∈ signs, unaryOp? x.token.kind = some x.op) →
      Unclaimed s' → NoAccess s' → (endsOpen e = true → Exhausted s') →
      operandWith lex expr operand s = .ok (match signs with
        | [] => e
        | x :: signs => .signed ((x :: signs).map Sign.sign) e, s') := by
    intro signs e xs s t s' script short runSigns run ops unclaimed access exhausted
    obtain ⟨e₀, xs₀, suffixes, primaryScript, rfl, rfl, fits, inner, closed⟩ :=
      script.accessed_cases
    simp only [List.length_append, List.length_map] at short
    obtain ⟨u, runPrimary, runSuffixes⟩ := run_append.1 run
    have follows := follows_primary runSuffixes rfl fits closed unclaimed exhausted
    have enough : signs.length ≤ s.cursor.rest.length + 1 := by
      have used := runSigns.length_add_left forward
      have left := s.left_le
      rw [List.length_map] at used
      omega
    have stop : t.kind?.bind unaryOp? = none := by
      obtain ⟨x, head, -, first⟩ := primaryScript.startsExpr
      rw [kind?_of_head run head]
      exact unaryOp_of_startsPrimary (first (.inl rfl))
    have exhausted₀ : endsOpen e₀ = true → Exhausted u := by
      intro isOpen
      obtain ⟨rfl, here⟩ := follows.2 isOpen
      exact here
    have positive := List.length_pos_of_ne_nil primaryScript.ne_nil
    have replayed := primary_replays forward hexpr hoperand primaryScript (by omega) runPrimary
      follows.1 exhausted₀
    rw [operandWith, remaining_bind]
    refine bind_eq_ok.2 ⟨_, t, signsUpTo_replays ops enough runSigns stop, bind_eq_ok.2 ⟨e₀, u,
      replayed, bind_eq_ok.2 ⟨_, s', accessed_replays forward hexpr fits inner (by omega)
      runSuffixes access, ?_⟩⟩⟩
    cases signs with
    | nil => exact pure_eq_ok.2 ⟨rfl, rfl⟩
    | cons x signs => exact pure_eq_ok.2 ⟨rfl, rfl⟩
  intro s s' e xs script short run unclaimed access exhausted
  cases script with
  | unsigned script =>
    exact accessed [] script short (.nil s) run (by simp) unclaimed access exhausted
  | signed signs ne ops script =>
    obtain ⟨x, signs, rfl⟩ := List.exists_cons_of_ne_nil ne
    obtain ⟨t, runSigns, run⟩ := run_append.1 run
    exact accessed (x :: signs) script short runSigns run ops unclaimed access exhausted

end Rules

/-- Twice as many levels of nesting as there are steps are enough. -/
theorem replays (forward : Forward lex) (n : Nat) :
    (∀ length, 2 * length ≤ n + 1 → ReplaysOperand lex length (operand lex n)) ∧
      (∀ length, 2 * length ≤ n → ReplaysExpr lex length (exprUpTo lex n)) := by
  -- there is no script without steps, so for length zero any parser will do
  have empty : ∀ {p : Parser Surface.Expr}, ReplaysOperand lex 0 p ∧ ReplaysExpr lex 0 p := by
    intro p
    refine ⟨fun s s' e xs script short => ?_, fun s s' e xs script short => ?_⟩
    · exact (script.ne_nil (List.eq_nil_of_length_eq_zero (by omega))).elim
    · exact (script.ne_nil (List.eq_nil_of_length_eq_zero (by omega))).elim
  induction n with
  | zero =>
    refine ⟨fun length enough => ?_, fun length enough => ?_⟩
    · obtain rfl : length = 0 := by omega
      exact empty.1
    · obtain rfl : length = 0 := by omega
      exact empty.2
  | succ n ih =>
    obtain ⟨hoperand, hexpr⟩ := ih
    refine ⟨fun length enough => ?_, fun length enough => ?_⟩
    · cases length with
      | zero => exact empty.1
      | succ length =>
        rw [operand]
        exact operandWith_replays forward (hexpr length (by omega)) (hoperand length (by omega))
    -- an expression is its first operand and the links behind it, at the same bound on nesting
    · intro s s' e xs script short run settled
      have hoperand := hoperand length enough
      obtain ⟨e₀, xs₀, links, first, rfl, rfl, ops, operands, closed, closed₀⟩ := script.expr_cases
      rw [List.length_append] at short
      obtain ⟨t, runFirst, runLinks⟩ := run_append.1 run
      obtain ⟨unclaimed, access, exhausted⟩ := follows_operand runLinks ops closed₀ settled
      rw [exprUpTo]
      exact bind_eq_ok.2 ⟨e₀, t, hoperand s t e₀ xs₀ first (by omega) runFirst unclaimed access
        exhausted, chainFrom_replays forward hoperand ops operands closed (by omega) runLinks
        settled⟩

/-- Where the steps of an expression can be taken, the parser takes them and finds it. -/
theorem expr_replays (forward : Forward lex) {s s' : State} {e : Surface.Expr} {xs : List Step}
    (script : Script .expr .plain e xs) (run : Run lex s xs s') (settled : Settled s') :
    expr lex s = .ok (e, s') := by
  have used := run.length_add_left forward
  have left := s.left_le
  rw [expr, remaining_bind]
  exact (replays forward _).2 xs.length (by omega) s s' e xs script (Nat.le_refl _) run settled

end Wdl.Parser
