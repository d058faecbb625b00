import Mathlib.Data.List.Chain
import Wdl.Proofs.Frames

/-!
# Wdl.Proofs.TypeTexts -- texts of types

What follows a token of a type decides little about it: a name must not go on, and a plus sign must
not be followed by a question mark. The tokens of a type never stand so, whatever layout is between
them; so they are found wherever a name is looked for, and a text that is made of them declares the
member of a struct to be of the type that they write.

* `typeTokens` are the seven tokens of types with what is looked for behind each. `Follows` says
  which may stand behind which, and `Typelike` describes lists of tokens by it. `TypeSteps.typelike`
  shows that types are of this form; what it forgets is that brackets match.
* `Lexeme.Proper` is a token as it is written, behind layout. `Legible.of_typelike` shows that
  proper lexemes like a type are found. The cases are few, since only the kinds of two neighbours
  matter.
* `StructFrame`, of `Wdl.Proofs.Frames`, is the text around the type of the one member of a struct,
  and `StructFrame.Declares` says which type a text declares there. `StructFrame.declares_type` is
  the result.
-/

namespace Wdl

open Scan
open Wdl.Parser (Step TypeSteps Mark)

/-! ## The tokens of a type

A type is put together from names and other types, by a comma between two types, by brackets around
types and by a mark behind them. Each of these keeps the form. -/

/-- The tokens of a type, with what is looked for behind each. -/
def typeTokens : List (Terminal × Expect) :=
  [(.name, Expect.afterTypeName), (.symbol .bracketOpen, Expect.aName),
    (.symbol .comma, Expect.aName), (.symbol .bracketClose, Expect.quantifiers),
    (.symbol .question, Expect.afterType), (.symbol .plus, Expect.afterType),
    (.symbol .plusQuestion, Expect.afterType)]

/-- The kind of a token, with what is looked for behind it. -/
def Parser.Step.role (x : Step) : Terminal × Expect := (x.token.kind, x.after)

/-- The kind of a token, with what is looked for behind it. -/
def Lexeme.role (l : Lexeme) : Terminal × Expect := (l.kind, l.after)

/-- A token may follow another within a type: it is looked for, and they are not both names. -/
def Follows (p q : Terminal × Expect) : Prop := q.1 ∈ p.2 ∧ (p.1 = .name → q.1 ≠ .name)

instance (p q : Terminal × Expect) : Decidable (Follows p q) := inferInstanceAs (Decidable (_ ∧ _))

namespace Parser

/-- A list of tokens that may stand in a type, of which the first is a name, and behind which a
symbol between types may follow. -/
structure Typelike (ps : List (Terminal × Expect)) : Prop where
  tokens : ∀ p ∈ ps, p ∈ typeTokens
  chain : ps.IsChain Follows
  first : ps.head?.map Prod.fst = some .name
  last : ∀ p ∈ ps.getLast?, Follows p (.symbol .comma, Expect.aName) ∧
    Follows p (.symbol .bracketClose, Expect.quantifiers)

/-- A mark is nothing, or one symbol. -/
theorem Mark.role_steps {m : Mark} (fits : m.Fits) :
    m.steps = [] ∨ ∃ x q, m.steps = [x] ∧ x.role = (.symbol (Surface.Quantifier.symbol q),
      Expect.afterType) := by
  cases m with
  | none => exact .inl rfl
  | some p => exact .inr ⟨_, p.1, rfl, congrArg (·, Expect.afterType) (fits p rfl)⟩

/-- With its mark, what is like a type up to there is like a type. -/
theorem Typelike.marked {ps : List (Terminal × Expect)} (h : Typelike ps) {m : Mark}
    (fits : m.Fits) (marks : ∀ p ∈ ps.getLast?, ∀ q,
      Follows p (.symbol (Surface.Quantifier.symbol q), Expect.afterType)) :
    Typelike (ps ++ m.steps.map Step.role) := by
  rcases Mark.role_steps fits with none | ⟨x, q, eq, role⟩
  · simpa [none] using h
  · rw [eq, List.map_singleton, role]
    refine ⟨?_, ?_, ?_, ?_⟩
    · intro p hp
      rcases List.mem_append.1 hp with hp | hp
      · exact h.tokens p hp
      · rw [List.mem_singleton.1 hp]
        cases q <;> decide
    · refine List.isChain_append.2 ⟨h.chain, .singleton _, fun p hp y hy => ?_⟩
      cases hy
      exact marks p hp q
    · have ne : ps ≠ [] := by
        rintro rfl
        cases h.first
      rw [List.head?_append_of_ne_nil _ ne]
      exact h.first
    · intro p hp
      rw [List.getLast?_concat] at hp
      cases hp
      cases q <;> decide

/-- There always is a name. -/
theorem Typelike.ne_nil {ps : List (Terminal × Expect)} (h : Typelike ps) : ps ≠ [] := by
  rintro rfl
  cases h.first

/-- Two types with a comma between them are like a type. -/
theorem Typelike.comma {ps qs : List (Terminal × Expect)} (hp : Typelike ps) (hq : Typelike qs) :
    Typelike (ps ++ (.symbol .comma, Expect.aName) :: qs) := by
  obtain ⟨q, qs', rfl⟩ := List.exists_cons_of_ne_nil hq.ne_nil
  have name : q.1 = .name := Option.some.inj hq.first
  refine ⟨?_, ?_, ?_, ?_⟩
  · intro p h
    rcases List.mem_append.1 h with h | h
    · exact hp.tokens p h
    · rcases List.mem_cons.1 h with rfl | h
      · decide
      · exact hq.tokens p h
  · refine List.isChain_append.2 ⟨hp.chain, .cons_cons ⟨?_, by simp⟩ hq.chain, fun p h y hy => ?_⟩
    · rw [name]
      decide
    · cases hy
      exact (hp.last p h).1
  · rw [List.head?_append_of_ne_nil _ hp.ne_nil]
    exact hp.first
  · intro p h
    rw [List.getLast?_append_cons, List.getLast?_cons_cons] at h
    exact hq.last p h

/-- A name with types in brackets behind it is like a type, with a mark or without. -/
theorem Typelike.bracketed {ps : List (Terminal × Expect)} (h : Typelike ps) {m : Mark}
    (fits : m.Fits) :
    Typelike ((.name, Expect.afterTypeName) :: (.symbol .bracketOpen, Expect.aName) ::
      (ps ++ (.symbol .bracketClose, Expect.quantifiers) :: m.steps.map Step.role)) := by
  obtain ⟨q, ps', rfl⟩ := List.exists_cons_of_ne_nil h.ne_nil
  have name : q.1 = .name := Option.some.inj h.first
  let front := (Terminal.name, Expect.afterTypeName) :: (.symbol .bracketOpen, Expect.aName) ::
    (q :: ps' ++ [(.symbol .bracketClose, Expect.quantifiers)])
  have last : front.getLast? = some (.symbol .bracketClose, Expect.quantifiers) := by
    show ((_ :: _ :: (q :: ps')) ++ [_]).getLast? = _
    rw [List.getLast?_concat]
  have unmarked : Typelike front := by
    refine ⟨?_, ?_, rfl, ?_⟩
    · intro p hp
      simp only [front, List.mem_cons, List.mem_append, List.not_mem_nil, or_false] at hp
      rcases hp with rfl | rfl | hp | rfl
      · decide
      · decide
      · exact h.tokens p (List.mem_cons.2 hp)
      · decide
    · refine .cons_cons (by decide) (.cons_cons ⟨?_, by simp⟩ ?_)
      · rw [name]
        decide
      · refine List.isChain_append.2 ⟨h.chain, .singleton _, fun p hp y hy => ?_⟩
        cases hy
        exact (h.last p hp).2
    · rw [last]
      decide
  have marked := unmarked.marked fits (by
    rw [last]
    rintro p ⟨⟩ q
    cases q <;> decide)
  simpa [front] using marked

/-- The tokens of a type are like a type. -/
theorem TypeSteps.typelike {t : Surface.TypeExpr} {xs : List Step} (h : TypeSteps t xs) :
    Typelike (xs.map Step.role) := by
  induction h with
  | name t m kind fits =>
    have alone : Typelike [(.name, Expect.afterTypeName)] :=
      ⟨by decide, .singleton _, rfl, by decide⟩
    simp only [List.map_cons, Step.role, kind]
    refine alone.marked fits ?_
    rintro p ⟨⟩ q
    cases q <;> decide
  | one t bracket close m kind opened closes fits _ ih =>
    simpa [Step.role, kind, opened, closes] using ih.bracketed fits
  | two t bracket comma close m kind opened between closes fits _ _ ih ih' =>
    simpa [Step.role, kind, opened, between, closes] using (ih.comma ih').bracketed fits

end Parser

/-! ## Where the tokens are found

The longest token that is looked for is taken. So for each token it is to be shown that no longer
one starts where it does, which is about the first character behind it. -/

/-- A lexeme that is written as its kind is, behind layout. -/
structure Lexeme.Proper (l : Lexeme) : Prop where
  gap : Gap false l.gap false
  name : l.kind = .name → IsWord l.chars
  symbol : ∀ s, l.kind = .symbol s → l.chars = s.spelling

/-- A text that starts with layout, if it starts at all. -/
def Loose (rest : List Char) : Prop := ∀ c ∈ rest.head?, isSolid c = false

/-- Layout is no solid character. -/
theorem Scan.Gap.loose {b : Bool} {gap rest : List Char} (h : Gap false gap b)
    (loose : Loose rest) :
    Loose (gap ++ rest) := by
  cases h with
  | nil => exact loose
  | windows => simp [Loose, isSolid]
  | newline => simp [Loose, isSolid]
  | hash => simp [Loose, isSolid]
  | blank blank => rcases blank with rfl | rfl <;> simp [Loose, isSolid]

variable {fe : FrontEnd} {A : Expect} {ls : List Lexeme} {rest : List Char}

/-- A text of proper lexemes starts with layout, or as its first lexeme does. -/
theorem head?_spelled (proper : ∀ l ∈ ls, l.Proper) (tokens : ∀ l ∈ ls, l.role ∈ typeTokens)
    (loose : Loose rest) {c : Char} (head : (spelled ls ++ rest).head? = some c) :
    isSolid c = false ∨ ∃ l ∈ ls.head?, (l.kind = .name ∧ isLetter c = true) ∨
      ∃ s, l.kind = .symbol s ∧ s.spelling.head? = some c := by
  cases ls with
  | nil => exact .inl (loose c head)
  | cons l ls =>
    obtain ⟨gap, name, symbol⟩ := proper l (by simp)
    have kind : l.kind = .name ∨ ∃ s, l.kind = .symbol s := by
      have each : ∀ p ∈ typeTokens, p.1 = .name ∨ ∃ s, p.1 = .symbol s := by
        simp [typeTokens]
      exact each _ (tokens l (by simp))
    rw [spelled_cons, List.append_assoc] at head
    generalize l.gap = g at gap head
    cases gap with
    | nil =>
      refine .inr ⟨l, rfl, ?_⟩
      rcases kind with kind | ⟨s, kind⟩
      · obtain ⟨d, more, eq, letter, -⟩ := isWord_iff.1 (name kind)
        rw [eq] at head
        cases head
        exact .inl ⟨kind, letter⟩
      · rw [symbol s kind, List.nil_append, List.append_assoc,
          List.head?_append_of_ne_nil _ (spelling_ne_nil s)] at head
        exact .inr ⟨s, kind, head⟩
    | windows => cases head; exact .inl rfl
    | newline => cases head; exact .inl rfl
    | hash => cases head; exact .inl rfl
    | blank blank =>
      cases head
      rcases blank with rfl | rfl <;> exact .inl rfl

/-- Layout does not go on with a name. -/
theorem isNameChar_layout {c : Char} (layout : isSolid c = false) : isNameChar c = false := by
  simp only [isSolid, Bool.not_eq_false', Bool.or_eq_true, decide_eq_true_eq] at layout
  rcases layout with (((rfl | rfl) | rfl) | rfl) | rfl <;> rfl

/-- Nor does a symbol. -/
theorem isNameChar_symbol {s : Symbol} {c : Char} (head : s.spelling.head? = some c) :
    isNameChar c = false := by
  have each : ∀ s ∈ Symbol.all, (s.spelling.head?.all fun c => !isNameChar c) = true := by decide
  have here := each s s.mem_all
  rw [head] at here
  simpa using here

/-- Behind a name of a type nothing stands that the name would go on with. -/
theorem parted_spelled (proper : ∀ l ∈ ls, l.Proper) (tokens : ∀ l ∈ ls, l.role ∈ typeTokens)
    (loose : Loose rest) (other : ∀ l ∈ ls.head?, l.kind ≠ .name) :
    Parted (spelled ls ++ rest) := by
  intro c head
  rcases head?_spelled proper tokens loose head with layout | ⟨l, first, ⟨kind, -⟩ | ⟨s, -, head⟩⟩
  · exact isNameChar_layout layout
  · exact absurd kind (other l first)
  · exact isNameChar_symbol head

/-- Of the symbols of types, only the plus sign has a longer one that starts alike. -/
theorem clear_typeSymbol {s : Symbol} (type : s ∈ [.bracketOpen, .bracketClose, .comma, .question,
    .plus, .plusQuestion]) (mark : s = .plus → rest.head? ≠ some '?') : Clear A s rest := by
  by_cases plus : s = .plus
  · subst plus
    have rivals : ∀ t ∈ Symbol.all, t.spelling.head? = some '+' →
        t = .plus ∨ t = .plusQuestion := by
      decide
    intro t u _ eq ne same
    rcases rivals t t.mem_all (by rw [eq]; rfl) with rfl | rfl
    · exact ne (List.self_eq_append_right.1 eq)
    · obtain rfl : u = ['?'] := (List.cons_eq_cons.1 eq).2.symm
      exact mark rfl same.symm
  · refine clear_of_unrivalled ?_
    have alone : ∀ s ∈ [Symbol.bracketOpen, .bracketClose, .comma, .question, .plusQuestion],
        ∀ t ∈ Symbol.all, s.spelling.isPrefixOf t.spelling = true → t.spelling = s.spelling := by
      decide
    refine List.all_eq_true.2 fun t _ => ?_
    by_cases starts : s.spelling.isPrefixOf t.spelling = true
    · have same := alone s (by simp only [List.mem_cons] at type ⊢; tauto) t t.mem_all starts
      simp [same]
    · simp [starts]

/-- A lexeme that is found is proper. -/
theorem FrontEnd.Reads.proper {fe : FrontEnd} {A : Expect} {l : Lexeme} {rest : List Char}
    (h : fe.Reads A l.gap l.kind l.chars rest) (plain : Parser.isLiteral l.kind = false) :
    l.Proper := by
  obtain ⟨-, -, found⟩ := h.plain plain
  refine ⟨h.closed plain, fun kind => ?_, fun s kind => ?_⟩
  · rw [kind] at found
    refine isWord_of_nameLength? ?_ (nameLength?_of_plain? found)
    have pos := h.pos
    rintro none
    simp [none] at pos
  · exact FrontEnd.Reads.symbol (kind ▸ h)

/-- Lexemes that are found are proper. -/
theorem Legible.proper {fe : FrontEnd} {A : Expect} {ls : List Lexeme} {rest : List Char}
    (h : Legible fe A ls rest) (plain : ∀ l ∈ ls, Parser.isLiteral l.kind = false) :
    ∀ l ∈ ls, l.Proper := by
  induction ls generalizing A with
  | nil => simp
  | cons l ls ih =>
    rw [List.forall_mem_cons] at plain ⊢
    exact ⟨h.1.proper plain.1, ih h.2 plain.2⟩

/-- Lexemes like a type are found wherever a name is looked for. -/
theorem Legible.of_typelike (proper : ∀ l ∈ ls, l.Proper) (tokens : ∀ l ∈ ls, l.role ∈ typeTokens)
    (chain : (ls.map Lexeme.role).IsChain Follows) (loose : Loose rest)
    (follows : nameFollows A = true) (first : ∀ l ∈ ls.head?, l.kind ∈ A) :
    Legible fe A ls rest := by
  induction ls generalizing A with
  | nil => trivial
  | cons l ls ih =>
    have proper' : ∀ l ∈ ls, l.Proper := fun m hm => proper m (List.mem_cons_of_mem _ hm)
    have tokens' : ∀ l ∈ ls, l.role ∈ typeTokens := fun m hm => tokens m (List.mem_cons_of_mem _ hm)
    rw [List.map_cons, List.isChain_cons] at chain
    have next : ∀ m ∈ ls.head?, Follows l.role m.role := by
      intro m hm
      exact chain.1 _ (by rw [List.head?_map, hm]; rfl)
    have every : ∀ p ∈ typeTokens, nameFollows p.2 = true := by decide
    refine ⟨?_, ih proper' tokens' chain.2 (every _ (tokens l (by simp)))
      fun m hm => (next m hm).1⟩
    obtain ⟨gap, name, symbol⟩ := proper l (by simp)
    have looked := first l rfl
    by_cases kind : l.kind = .name
    · rw [kind]
      exact reads_name_behind follows gap (name kind)
        (parted_spelled proper' tokens' loose fun m hm => (next m hm).2 kind)
    · obtain ⟨s, symbolic, type, mark⟩ : ∃ s, l.kind = .symbol s ∧ s ∈ [.bracketOpen, .bracketClose,
          .comma, .question, .plus, .plusQuestion] ∧ (s = .plus → l.after = Expect.afterType) := by
        have here := tokens l (by simp)
        simp only [typeTokens, Lexeme.role, List.mem_cons, Prod.mk.injEq, List.not_mem_nil,
          or_false] at here
        rcases here with ⟨k, -⟩ | ⟨k, -⟩ | ⟨k, -⟩ | ⟨k, -⟩ | ⟨k, -⟩ | ⟨k, a⟩ | ⟨k, -⟩
        · exact absurd k kind
        all_goals exact ⟨_, k, by simp, by simp_all⟩
      have quiet : ordinary A = true := by
        simp only [nameFollows, Bool.and_eq_true] at follows
        exact follows.1.1
      have clear : Clear A s (spelled ls ++ rest) := by
        refine clear_typeSymbol type fun plus head => ?_
        -- behind a plus sign no mark is looked for
        rcases head?_spelled proper' tokens' loose head with
          layout | ⟨m, hm, ⟨-, letter⟩ | ⟨s', kind', head'⟩⟩
        · cases layout
        · cases letter
        · have ahead : m.kind ∈ l.after := (next m hm).1
          rw [mark plus, kind'] at ahead
          simp only [Expect.afterType, List.mem_cons, Terminal.symbol.injEq, reduceCtorEq,
            List.not_mem_nil, or_false] at ahead
          rcases ahead with rfl | rfl <;> cases head'
      rw [symbolic, symbol s symbolic]
      exact reads_symbol quiet gap (symbolic ▸ looked) clear (by rintro rfl; simp at type)
        (by rintro rfl; simp at type)

/-- The lexemes of a type are found wherever a name is looked for, if layout is behind them. -/
theorem Parser.TypeSteps.legible {t : Surface.TypeExpr} {at_ : Nat}
    (steps : TypeSteps t (stepsFrom at_ ls)) (proper : ∀ l ∈ ls, l.Proper) (loose : Loose rest)
    (follows : nameFollows A = true) :
    Legible fe A ls rest ∧ nameFollows (lastExpect A ls) = true := by
  have roles : (stepsFrom at_ ls).map Step.role = ls.map Lexeme.role := stepsFrom_map at_ ls
  obtain ⟨tokens, chain, first, -⟩ := roles ▸ steps.typelike
  have tokens : ∀ l ∈ ls, l.role ∈ typeTokens := fun l hl => tokens _ (List.mem_map_of_mem hl)
  refine ⟨.of_typelike proper tokens chain loose follows fun l hl => ?_, ?_⟩
  · rw [List.head?_map, hl] at first
    have name : l.kind = .name := Option.some.inj first
    simp only [nameFollows, Bool.and_eq_true] at follows
    exact name ▸ List.contains_iff_mem.1 follows.1.2
  · have every : ∀ p ∈ typeTokens, nameFollows p.2 = true := by decide
    rw [lastExpect]
    cases last : ls.getLast? with
    | none => exact follows
    | some l => exact every _ (tokens l (List.mem_of_getLast? last))

/-- The member of a struct is declared to be of the type that a text writes. -/
theorem StructFrame.declares_type {rules : Rules} {f : StructFrame} (fits : f.Fits rules)
    {written : String} {T : Ty} (trail : List Char) (chars : written.toList = spelled ls ++ trail)
    (layout : Gap false trail false) (proper : ∀ l ∈ ls, l.Proper)
    (writes : ∀ at_, ∃ t, TypeSteps t (stepsFrom at_ ls) ∧
      ∃ T', Build.type t = .ok T' ∧ (Node.type T').same (.type T) = true) :
    f.Declares rules written T := by
  obtain ⟨t, steps, -⟩ := writes 0
  have loose : ∀ rest, Loose (trail ++ ' ' :: rest) :=
    fun rest => layout.loose (by simp [Loose, isSolid])
  exact f.declares fits chars layout
    (fun rest => (steps.legible proper (loose rest) (by decide)).1)
    (@TypeSteps.legible rules.frontEnd _ _ _ _ _ steps proper (loose []) (by decide)).2
    writes

end Wdl
