import Wdl.Proofs.Outcomes

/-!
# Wdl.Proofs.Steps -- a run of a parser as a list of tokens

All that a parser does to a text is to take tokens, each with the terminals to look for behind it. A
run is the list of these steps between two states. Every primitive of the parser is described by the
steps it takes, so that what a parser reads and which steps read it can be told apart from how its
loops are bounded.

* `Step` is a token and the `Expect` behind it, and `Run` are steps that lead from one state to
  another.
* `Forward` scanners leave less of the text with each token. Then `Run.length_add_left` bounds the
  length of a run by `State.left`, which is what the fuel of every loop is compared with.
* `shift_eq_ok`, `take_eq_ok` and `optionalSymbol_eq_ok` describe the primitives. Each is an
  equivalence: from left to right it is used to find the steps of a parser that succeeded, from
  right to left to have a parser take given steps.
-/

namespace Wdl.Parser

/-! ## Runs -/

/-- A token that is taken, and the terminals that are looked for behind it. -/
structure Step where
  token : Token
  after : Expect
deriving DecidableEq, Repr

variable {α β : Type} {lex : Scanner}

/-- The steps lead from one state to another. -/
inductive Run (lex : Scanner) : State → List Step → State → Prop
  | nil (s : State) : Run lex s [] s
  | cons {s s' : State} {x : Step} {xs : List Step} {ahead : Option Token} {cursor : Cursor} :
      s.ahead = some x.token → lex x.after s.cursor = .ok (ahead, cursor) →
      Run lex ⟨ahead, cursor, some x.token.range⟩ xs s' → Run lex s (x :: xs) s'

@[simp] theorem run_nil {s s' : State} : Run lex s [] s' ↔ s = s' := by
  constructor
  · intro h
    cases h
    rfl
  · rintro rfl
    exact .nil s

/-- A run along two lists of steps is one along the first and then one along the second. -/
theorem run_append {s s' : State} {xs ys : List Step} :
    Run lex s (xs ++ ys) s' ↔ ∃ t, Run lex s xs t ∧ Run lex t ys s' := by
  constructor
  · intro h
    induction xs generalizing s with
    | nil => exact ⟨s, .nil s, h⟩
    | cons x xs ih =>
      cases h with
      | cons ahead next rest =>
        obtain ⟨t, first, second⟩ := ih rest
        exact ⟨t, .cons ahead next first, second⟩
  · rintro ⟨t, first, second⟩
    induction first with
    | nil => exact second
    | cons ahead next _ ih => exact .cons ahead next (ih second)

theorem run_cons {s s' : State} {x : Step} {xs : List Step} :
    Run lex s (x :: xs) s' ↔ ∃ t, Run lex s [x] t ∧ Run lex t xs s' := by
  rw [← List.singleton_append, run_append]

/-- A run starts with the token that is ahead. -/
theorem Run.ahead_eq {s s' : State} {x : Step} {xs : List Step} (h : Run lex s (x :: xs) s') :
    s.ahead = some x.token := by
  cases h
  assumption

/-! ## How many steps are left

The loops of the parser take the length of the text that is left as their fuel. A run cannot be
longer than that. -/

/-- A scanner that moves forward: behind a token that it finds less of the text is left. -/
def Forward (lex : Scanner) : Prop :=
  ∀ {after : Expect} {c c' : Cursor} {t : Token}, lex after c = .ok (some t, c') →
    c'.rest.length < c.rest.length

/-- A bound on the steps that a state has ahead of it. -/
def State.left (s : State) : Nat :=
  match s.ahead with
  | none => 0
  | some _ => s.cursor.rest.length + 1

theorem State.left_le (s : State) : s.left ≤ s.cursor.rest.length + 1 := by
  unfold left
  split <;> omega

/-- Every step of a run uses up one of the steps that are left. -/
theorem Run.length_add_left (forward : Forward lex) {s s' : State} {xs : List Step}
    (h : Run lex s xs s') : xs.length + s'.left ≤ s.left := by
  induction h with
  | nil => simp
  | @cons s s' x xs found cursor ahead next _ ih =>
    have here : s.left = s.cursor.rest.length + 1 := by simp [State.left, ahead]
    rw [List.length_cons]
    cases found with
    | none =>
      have : (State.mk none cursor (some x.token.range)).left = 0 := rfl
      omega
    | some t =>
      have shorter := forward next
      have := State.left_le ⟨some t, cursor, some x.token.range⟩
      simp only at this
      omega

/-! ## The primitives

`peek`, `sees` and `remaining` look at the state and leave it as it is. `shift` takes a step, and
all others that do are made of these. -/

/-- The terminal ahead of a state. -/
def State.kind? (s : State) : Option Terminal := s.ahead.map Token.kind

theorem Run.kind?_eq {s s' : State} {x : Step} {xs : List Step} (h : Run lex s (x :: xs) s') :
    s.kind? = some x.token.kind := by
  rw [State.kind?, h.ahead_eq, Option.map_some]

theorem reject_ne_ok {s s' : State} {x : α} : (reject : Parser α) s = .ok (x, s') ↔ False := by
  rw [iff_false]
  intro h
  obtain ⟨t, u, ht, hu⟩ := bind_eq_ok.1 h
  cases ahead : t.ahead <;> simp only [ahead] at hu <;> cases hu

theorem peek_eq_ok {s s' : State} {k : Option Terminal} :
    peek s = .ok (k, s') ↔ k = s.kind? ∧ s = s' := by
  show (Except.ok (s.kind?, s) : Except Rejection _) = _ ↔ _
  simp [eq_comm]

theorem sees_eq_ok {k : Terminal} {s s' : State} {b : Bool} :
    sees k s = .ok (b, s') ↔ b = (s.kind? == some k) ∧ s = s' := by
  show (Except.ok (s.kind? == some k, s) : Except Rejection _) = _ ↔ _
  simp [eq_comm]

theorem remaining_eq_ok {s s' : State} {n : Nat} :
    remaining s = .ok (n, s') ↔ n = s.cursor.rest.length + 1 ∧ s = s' := by
  show (Except.ok (s.cursor.rest.length + 1, s) : Except Rejection _) = _ ↔ _
  simp [eq_comm]

/-- Taking the token ahead is one step. -/
theorem shift_eq_ok {after : Expect} {s s' : State} {t : Token} :
    shift lex after s = .ok (t, s') ↔ Run lex s [⟨t, after⟩] s' := by
  obtain ⟨ahead, cursor, last⟩ := s
  constructor
  · intro h
    obtain ⟨u, v, hu, hv⟩ := bind_eq_ok.1 h
    cases hu
    cases ahead with
    | none => exact absurd hv (by simp [reject_ne_ok])
    | some token =>
      simp only at hv
      cases next : lex after cursor with
      | error place => rw [next] at hv; cases hv
      | ok found =>
        rw [next] at hv
        cases hv
        exact .cons rfl next (.nil _)
  · intro h
    cases h with
    | cons hahead next rest =>
      cases hahead
      cases run_nil.1 rest
      refine bind_eq_ok.2 ⟨⟨some t, cursor, last⟩, ⟨some t, cursor, last⟩, rfl, ?_⟩
      simp only [next]
      rfl

/-- Taking a token of one terminal is one step with such a token. -/
theorem take_eq_ok {k : Terminal} {after : Expect} {s s' : State} {t : Token} :
    take lex k after s = .ok (t, s') ↔ t.kind = k ∧ Run lex s [⟨t, after⟩] s' := by
  rw [take, bind_eq_ok]
  simp only [sees_eq_ok]
  constructor
  · rintro ⟨b, u, ⟨rfl, rfl⟩, h⟩
    split at h
    · rename_i seen
      have run := shift_eq_ok.1 h
      have seen := eq_of_beq seen
      rw [run.kind?_eq] at seen
      exact ⟨Option.some.inj seen, run⟩
    · exact (reject_ne_ok.1 h).elim
  · rintro ⟨rfl, run⟩
    refine ⟨_, s, ⟨rfl, rfl⟩, ?_⟩
    rw [if_pos (by simp [run.kind?_eq])]
    exact shift_eq_ok.2 run

theorem takeSymbol_eq_ok {k : Symbol} {after : Expect} {s s' : State} {t : Token} :
    takeSymbol lex k after s = .ok (t, s') ↔ t.kind = .symbol k ∧ Run lex s [⟨t, after⟩] s' :=
  take_eq_ok

theorem takeKeyword_eq_ok {k : Keyword} {after : Expect} {s s' : State} {t : Token} :
    takeKeyword lex k after s = .ok (t, s') ↔ t.kind = .keyword k ∧ Run lex s [⟨t, after⟩] s' :=
  take_eq_ok

/-- A symbol that may be missing is taken exactly if it is ahead. -/
theorem optionalSymbol_eq_ok {k : Symbol} {after : Expect} {s s' : State} {b : Bool} :
    optionalSymbol lex k after s = .ok (b, s') ↔
      (b = true ∧ ∃ t : Token, t.kind = .symbol k ∧ Run lex s [⟨t, after⟩] s') ∨
        (b = false ∧ s.kind? ≠ some (.symbol k) ∧ s = s') := by
  rw [optionalSymbol, bind_eq_ok]
  simp only [sees_eq_ok]
  constructor
  · rintro ⟨c, u, ⟨rfl, rfl⟩, h⟩
    split at h
    · rename_i seen
      obtain ⟨t, u, ht, hu⟩ := bind_eq_ok.1 h
      obtain ⟨rfl, rfl⟩ := pure_eq_ok.1 hu
      have run := shift_eq_ok.1 ht
      have seen := eq_of_beq seen
      rw [run.kind?_eq] at seen
      exact .inl ⟨rfl, t, Option.some.inj seen, run⟩
    · rename_i unseen
      obtain ⟨rfl, rfl⟩ := pure_eq_ok.1 h
      exact .inr ⟨rfl, by simpa using unseen, rfl⟩
  · rintro (⟨rfl, t, kind, run⟩ | ⟨rfl, unseen, rfl⟩)
    · refine ⟨_, s, ⟨rfl, rfl⟩, ?_⟩
      rw [if_pos (by simp [run.kind?_eq, kind])]
      exact bind_eq_ok.2 ⟨t, s', shift_eq_ok.2 run, pure_eq_ok.2 ⟨rfl, rfl⟩⟩
    · refine ⟨_, s, ⟨rfl, rfl⟩, ?_⟩
      rw [if_neg (by simpa using unseen)]
      exact pure_eq_ok.2 ⟨rfl, rfl⟩

/-! ## Branches

A parser that looks at a state and goes on has the branch of what is ahead. -/

theorem peek_bind {f : Option Terminal → Parser α} {s s' : State} {x : α} :
    (peek >>= f) s = .ok (x, s') ↔ f s.kind? s = .ok (x, s') := by
  simp [peek_eq_ok]

theorem remaining_bind {f : Nat → Parser α} {s s' : State} {x : α} :
    (remaining >>= f) s = .ok (x, s') ↔ f (s.cursor.rest.length + 1) s = .ok (x, s') := by
  simp [remaining_eq_ok]

/-- A parser that looks for a terminal is one parser where it is ahead, and another elsewhere. -/
theorem sees_bind {k : Terminal} {p q : Parser α} {s s' : State} {x : α} :
    (sees k >>= fun b => if b = true then p else q) s = .ok (x, s') ↔
      (s.kind? = some k ∧ p s = .ok (x, s')) ∨ (s.kind? ≠ some k ∧ q s = .ok (x, s')) := by
  simp only [bind_eq_ok, sees_eq_ok]
  by_cases h : s.kind? = some k
  · simp [h]
  · simp [h]

/-- A parser that takes a symbol if it can goes on in one way behind it, and in another without. -/
theorem optionalSymbol_bind {k : Symbol} {after : Expect} {p q : Parser α} {s s' : State} {x : α} :
    (optionalSymbol lex k after >>= fun b => if b = true then p else q) s = .ok (x, s') ↔
      (∃ t u, t.kind = .symbol k ∧ Run lex s [⟨t, after⟩] u ∧ p u = .ok (x, s')) ∨
        (s.kind? ≠ some (.symbol k) ∧ q s = .ok (x, s')) := by
  simp only [bind_eq_ok, optionalSymbol_eq_ok]
  constructor
  · rintro ⟨b, u, ⟨rfl, t, kind, run⟩ | ⟨rfl, unseen, rfl⟩, h⟩
    · exact .inl ⟨t, u, kind, run, by simpa using h⟩
    · exact .inr ⟨unseen, by simpa using h⟩
  · rintro (⟨t, u, kind, run, h⟩ | ⟨unseen, h⟩)
    · exact ⟨true, u, .inl ⟨rfl, t, kind, run⟩, by simpa using h⟩
    · exact ⟨false, s, .inr ⟨rfl, unseen, rfl⟩, by simpa using h⟩

end Wdl.Parser
