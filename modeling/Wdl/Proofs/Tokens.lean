import Wdl.Proofs.Lexemes
import Wdl.Proofs.Script

/-!
# Wdl.Proofs.Tokens -- where a token is found

A scanner passes over a gap of layout and finds the characters of a token; what is left is the rest
of the text. So a token is a stretch of the text, tokens follow each other, and a token other than
literal text does not end with a line break. What is found depends on the gap, the token, and a
little of what comes next, so that it is found again where the text is cut behind it.

* `Gap b g b'` is layout as a relation. The flags say whether reading is inside a comment before and
  behind it, so gaps can be put together; `layoutLength_split` and `Gap.layoutLength_append` tie it
  to `layoutLength`.
* `Scan.plainAs?` is the part of the scanner that is responsible for a terminal, and
  `Scan.plain?_found` the inversion lemma: what is found is found by that part. Later modules split
  on it.
* `FrontEnd.Reads fe expect gap kind chars rest` says how a text is divided where a token is found.
  `next_eq_some` makes it an equivalence, and `next_eq_none` does for the end of
  the text.
* `Cursor.On`, `Token.On` and `State.Sound` say that a cursor, a token or a state stands in a given
  text.
* `Run.sound`, `Run.spanOf_eq` and `Run.front_lt_back` carry this along a run, one step at a time.
-/

namespace Wdl

namespace Scan

/-! ## Layout

Layout is blanks, line breaks and comments. A comment ends with its line. A carriage return is layout
only in front of a line feed, in a comment as well. -/

/-- Layout leads from one state of reading, inside a comment or outside, to another. -/
inductive Gap : Bool → List Char → Bool → Prop
  | nil (b : Bool) : Gap b [] b
  | windows {b b' : Bool} {g : List Char} : Gap false g b' → Gap b ('\r' :: '\n' :: g) b'
  | newline {b b' : Bool} {g : List Char} : Gap false g b' → Gap b ('\n' :: g) b'
  | remark {b' : Bool} {c : Char} {g : List Char} : c ≠ '\r' → c ≠ '\n' → Gap true g b' →
      Gap true (c :: g) b'
  | hash {b' : Bool} {g : List Char} : Gap true g b' → Gap false ('#' :: g) b'
  | blank {b' : Bool} {c : Char} {g : List Char} : c = ' ' ∨ c = '\t' → Gap false g b' →
      Gap false (c :: g) b'

theorem layoutLength_le (b : Bool) (cs : List Char) : layoutLength b cs ≤ cs.length := by
  induction b, cs using layoutLength.induct <;> simp_all [layoutLength]

/-- Layout is a gap, and what is behind it is no layout. -/
theorem layoutLength_split (b : Bool) (cs : List Char) :
    ∃ b', Gap b (cs.take (layoutLength b cs)) b' ∧
      layoutLength b' (cs.drop (layoutLength b cs)) = 0 := by
  induction b, cs using layoutLength.induct with
  | case1 b => exact ⟨b, .nil b, rfl⟩
  | case2 b rest ih =>
    obtain ⟨b', gap, stop⟩ := ih
    exact ⟨b', by simpa [layoutLength] using gap.windows, by simpa [layoutLength] using stop⟩
  | case3 b rest no =>
    have zero : layoutLength b ('\r' :: rest) = 0 := by rw [layoutLength, if_pos rfl]; exact no
    rw [zero]
    exact ⟨b, .nil b, zero⟩
  | case4 b rest no _ ih =>
    obtain ⟨b', gap, stop⟩ := ih
    have eq : layoutLength b ('\n' :: rest) = layoutLength false rest + 1 := by
      rw [layoutLength]
      · simp
      · exact no
    rw [eq]
    exact ⟨b', gap.newline, stop⟩
  | case5 c rest no carriage newline ih =>
    obtain ⟨b', gap, stop⟩ := ih
    have eq : layoutLength true (c :: rest) = layoutLength true rest + 1 := by
      rw [layoutLength]
      · simp [carriage, newline]
      · exact no
    rw [eq]
    exact ⟨b', gap.remark carriage newline, stop⟩
  | case6 b rest outside no _ _ ih =>
    obtain ⟨b', gap, stop⟩ := ih
    obtain rfl : b = false := by simpa using outside
    have eq : layoutLength false ('#' :: rest) = layoutLength true rest + 1 := by
      rw [layoutLength]
      · simp
      · exact no
    rw [eq]
    exact ⟨b', gap.hash, stop⟩
  | case7 b c rest no carriage newline outside hash blank ih =>
    obtain ⟨b', gap, stop⟩ := ih
    obtain rfl : b = false := by simpa using outside
    have eq : layoutLength false (c :: rest) = layoutLength false rest + 1 := by
      rw [layoutLength]
      · simp [carriage, newline, hash, blank]
      · exact no
    rw [eq]
    exact ⟨b', gap.blank blank, stop⟩
  | case8 b c rest no carriage newline outside hash blank =>
    have zero : layoutLength b (c :: rest) = 0 := by
      rw [layoutLength]
      · simp [carriage, newline, outside, hash, blank]
      · exact no
    rw [zero]
    exact ⟨b, .nil b, zero⟩

/-- Layout goes on behind a gap, in the state of reading that the gap leads to. -/
theorem Gap.layoutLength_append {b b' : Bool} {g : List Char} (h : Gap b g b') (cs : List Char) :
    layoutLength b (g ++ cs) = layoutLength b' cs + g.length := by
  induction h with
  | nil b => rfl
  | windows _ ih => simp [layoutLength, ih, Nat.add_assoc]
  | newline _ ih =>
    rw [List.cons_append, layoutLength]
    · simp [ih, Nat.add_assoc]
    · rintro rest h
      cases h
  | @remark _ c g carriage newline _ ih =>
    rw [List.cons_append, layoutLength]
    · simp [carriage, newline, ih, Nat.add_assoc]
    · rintro rest h
      exact absurd h carriage
  | hash _ ih =>
    rw [List.cons_append, layoutLength]
    · simp [ih, Nat.add_assoc]
    · rintro rest h
      cases h
  | @blank _ c g blank _ ih =>
    have carriage : c ≠ '\r' := by rintro rfl; simp at blank
    have newline : c ≠ '\n' := by rintro rfl; simp at blank
    have hash : c ≠ '#' := by rintro rfl; simp at blank
    rw [List.cons_append, layoutLength]
    · simp [carriage, newline, hash, blank, ih, Nat.add_assoc]
    · rintro rest h
      exact absurd h carriage

/-- A gap with no layout behind it is all the layout there is. -/
theorem Gap.layoutLength_eq {b b' : Bool} {g cs : List Char} (h : Gap b g b')
    (stop : layoutLength b' cs = 0) : layoutLength b (g ++ cs) = g.length := by
  rw [h.layoutLength_append, stop, Nat.zero_add]

/-- A gap is all layout. -/
theorem Gap.layoutLength_whole {b b' : Bool} {g : List Char} (h : Gap b g b') :
    layoutLength b g = g.length := by
  have eq := h.layoutLength_append []
  rwa [List.append_nil, layoutLength, Nat.zero_add] at eq

/-- That a token is no layout is seen from the token alone, as it does not end with a line
break. -/
theorem layoutLength_token {b : Bool} {t xs : List Char} (ne : t ≠ [])
    (ends : ∀ c, t.getLast? = some c → isBreak c = false) (stop : layoutLength b (t ++ xs) = 0)
    (ys : List Char) : layoutLength b (t ++ ys) = 0 := by
  match t, ne with
  | [c], _ =>
    have inline := ends c rfl
    have carriage : c ≠ '\r' := by rintro rfl; cases inline
    have newline : c ≠ '\n' := by rintro rfl; cases inline
    have start : ∀ zs, layoutLength b (c :: zs) =
        if b then layoutLength true zs + 1
        else if c = '#' then layoutLength true zs + 1
        else if c = ' ' ∨ c = '\t' then layoutLength false zs + 1
        else 0 := by
      intro zs
      rw [layoutLength, if_neg carriage, if_neg newline]
      rintro rest h
      exact absurd h carriage
    simp only [List.singleton_append, start] at stop ⊢
    repeat' split at stop
    all_goals simp_all
  | c :: d :: t, _ =>
    -- only a carriage return looks further than one character, and with a line feed it would be
    -- layout
    by_cases windows : c = '\r' ∧ d = '\n'
    · obtain ⟨rfl, rfl⟩ := windows
      simp [layoutLength] at stop
    · have start : ∀ zs, layoutLength b (c :: d :: zs) =
          if c = '\r' then 0
          else if c = '\n' then layoutLength false (d :: zs) + 1
          else if b then layoutLength true (d :: zs) + 1
          else if c = '#' then layoutLength true (d :: zs) + 1
          else if c = ' ' ∨ c = '\t' then layoutLength false (d :: zs) + 1
          else 0 := by
        intro zs
        rw [layoutLength]
        rintro rest rfl ⟨⟩
        exact windows ⟨rfl, rfl⟩
      simp only [List.cons_append, start] at stop ⊢
      repeat' split at stop
      all_goals simp_all

/-! ## Literal text

Literal text of a string goes on up to a mark or the opening of a placeholder, over line breaks as
well. It looks two characters ahead at most, which is what `stringTextLength_append` needs to know
of the text behind. -/

/-- The last character of a text, with nothing behind it. -/
theorem stringTextLength_single (q : Quote) (c : Char) :
    stringTextLength q [c] =
      if c = '\\' then 1 else if c = q.char then 0 else if isSigil c then 0 else 1 := by
  by_cases backslash : c = '\\'
  · subst backslash
    rfl
  · rw [stringTextLength, if_neg backslash]
    · rfl
    · rintro h
      exact absurd h backslash
    · rintro e rest h
      exact absurd h backslash

/-- Literal text of a string is read with one character of look-ahead. -/
theorem stringTextLength_cons₂ (q : Quote) (c d : Char) (cs : List Char) :
    stringTextLength q (c :: d :: cs) =
      if c = '\\' then
        if d = '\\' ∨ d = q.char then stringTextLength q cs + 2
        else stringTextLength q (d :: cs) + 1
      else if c = q.char then 0
      else if isSigil c ∧ d = '\x7b' then 0
      else stringTextLength q (d :: cs) + 1 := by
  by_cases backslash : c = '\\'
  · subst backslash
    rw [stringTextLength, if_pos rfl]
  · rw [stringTextLength, if_neg backslash]
    · by_cases sigil : isSigil c = true <;> by_cases brace : d = '\x7b' <;> simp [sigil, brace]
    · rintro h
      exact absurd h backslash
    · rintro e rest h
      exact absurd h backslash

theorem stringTextLength_le (q : Quote) : (cs : List Char) → stringTextLength q cs ≤ cs.length
  | [] => Nat.le_refl _
  | [c] => by
    rw [stringTextLength_single, List.length_singleton]
    repeat' split
    all_goals omega
  | c :: d :: cs => by
    have ih := stringTextLength_le q cs
    have ih' := stringTextLength_le q (d :: cs)
    rw [stringTextLength_cons₂]
    simp only [List.length_cons] at ih' ⊢
    repeat' split
    all_goals omega

theorem bracesTextLength_le (cs : List Char) : bracesTextLength cs ≤ cs.length := by
  induction cs using bracesTextLength.induct <;> unfold bracesTextLength <;> simp_all

theorem heredocTextLength_le (cs : List Char) : heredocTextLength cs ≤ cs.length := by
  induction cs using heredocTextLength.induct <;> unfold heredocTextLength <;> simp_all

/-- Literal text ends where it does because of the next character, and what that starts. -/
theorem stringTextLength_append (q : Quote) (a : Char) (ys zs : List Char)
    (stop : stringTextLength q (a :: zs) = 0) :
    (t : List Char) → stringTextLength q (t ++ a :: ys) = t.length →
      stringTextLength q (t ++ a :: zs) = t.length
  | [], _ => stop
  | [c], h => by
    simp only [List.singleton_append, stringTextLength_cons₂, List.length_singleton] at h ⊢
    grind
  | c :: d :: t, h => by
    have ih := stringTextLength_append q a ys zs stop t
    have ih' := stringTextLength_append q a ys zs stop (d :: t)
    simp only [List.cons_append, List.length_cons, stringTextLength_cons₂] at h ih' ⊢
    grind

theorem positive?_eq_some {n m : Nat} : positive? n = some m ↔ n = m ∧ 0 < m := by
  unfold positive?
  split
  · simp
    omega
  · simp
    omega

/-- A class of tokens is found only where its terminal is looked for. -/
theorem class?_eq_some {expect : Expect} {t : Terminal} {f : List Char → Option Nat}
    {cs : List Char} {found : Terminal × Nat} (h : class? expect t f cs = some found) :
    expect.contains t = true ∧ found.1 = t ∧ f cs = some found.2 := by
  unfold class? at h
  split at h
  · rename_i looked
    obtain ⟨n, hn, rfl⟩ := Option.map_eq_some_iff.1 h
    exact ⟨looked, rfl, hn⟩
  · cases h

/-- Literal text that is found is looked for, and is not empty. -/
theorem literal?_eq_some {expect : Expect} {cs : List Char} {found : Terminal × Nat}
    (h : literal? expect cs = some found) :
    expect.contains found.1 = true ∧ Parser.isLiteral found.1 = true ∧ 0 < found.2 ∧
      found.2 ≤ cs.length := by
  obtain ⟨t, mem, h⟩ := List.exists_of_findSome?_eq_some h
  obtain ⟨looked, kind, size⟩ := class?_eq_some h
  obtain ⟨size, pos⟩ := positive?_eq_some.1 size
  rw [kind, ← size]
  rw [← size] at pos
  simp only [List.mem_cons, List.not_mem_nil, or_false] at mem
  rcases mem with rfl | rfl | rfl | rfl
  · exact ⟨looked, rfl, pos, stringTextLength_le .single cs⟩
  · exact ⟨looked, rfl, pos, heredocTextLength_le cs⟩
  · exact ⟨looked, rfl, pos, stringTextLength_le .double cs⟩
  · exact ⟨looked, rfl, pos, bracesTextLength_le cs⟩

/-- Where no literal text is looked for, none is found. -/
theorem literal?_eq_none {expect : Expect} (calm : ∀ t ∈ expect, Parser.isLiteral t = false)
    (cs : List Char) : literal? expect cs = none := by
  cases h : literal? expect cs with
  | none => rfl
  | some found =>
    obtain ⟨looked, literal, -⟩ := literal?_eq_some h
    rw [calm _ (List.contains_iff_mem.1 looked)] at literal
    cases literal

/-- Inside a string, the literal text that is looked for is that of the string. -/
theorem literal?_inString (q : Quote) (cs : List Char) :
    literal? (Expect.inString q) cs =
      (positive? (stringTextLength q cs)).map (Terminal.stringText q, ·) := by
  cases q
  · cases h : positive? (stringTextLength .single cs) <;>
      simp [literal?, List.findSome?, class?, Expect.inString, h]
  · cases h : positive? (stringTextLength .double cs) <;>
      simp [literal?, List.findSome?, class?, Expect.inString, h]

/-! ### The parts of the scanner -/

variable {fe : FrontEnd} {expect : Expect} {cs : List Char} {found : Terminal × Nat}

/-- Numbers of any notation are looked for as one terminal. -/
theorem number?_eq_some (h : number? fe expect cs = some found) :
    .number .decimal ∈ expect ∧
      ∃ kind, found.1 = .number kind ∧ fe.scanNumber cs = some (kind, found.2) := by
  unfold number? at h
  split at h
  · rename_i looked
    obtain ⟨⟨kind, n⟩, scanned, rfl⟩ := Option.map_eq_some_iff.1 h
    exact ⟨List.contains_iff_mem.1 looked, kind, rfl, scanned⟩
  · cases h

/-- What is found as a word is a keyword or a name. -/
theorem word?_kind (h : word? expect cs = some found) :
    (∃ k, found.1 = .keyword k) ∨ found.1 = .name := by
  unfold word? at h
  split at h
  · obtain ⟨n, -, rfl⟩ := Option.map_eq_some_iff.1 h
    cases keywordOf? expect (cs.take n) with
    | none => exact .inr rfl
    | some k => exact .inl ⟨k, rfl⟩
  · obtain ⟨k, -, h⟩ := List.exists_of_findSome?_eq_some h
    split at h
    · obtain ⟨n, -, rfl⟩ := Option.map_eq_some_iff.1 h
      exact .inl ⟨k, rfl⟩
    · cases h

/-- What is found as a symbol is one. -/
theorem symbol?_kind (h : symbol? expect cs = some found) : ∃ s, found.1 = .symbol s := by
  obtain ⟨s, -, h⟩ := List.exists_of_findSome?_eq_some h
  split at h
  · obtain ⟨n, -, rfl⟩ := Option.map_eq_some_iff.1 h
    exact ⟨s, rfl⟩
  · cases h

/-- The part of the scanner that finds a terminal where no literal text starts. -/
def plainAs? (fe : FrontEnd) (expect : Expect) (cs : List Char) : Terminal → Option (Terminal × Nat)
  | .keyword _ | .name => word? expect cs
  | .symbol _ => symbol? expect cs
  | .number _ => number? fe expect cs
  | .quoted q => class? expect (.quoted q) (quotedLength? q) cs
  | .mark q => class? expect (.mark q) (spellingLength? [q.char]) cs
  | .opening => class? expect .opening openingLength? cs
  | .versionWord => class? expect .versionWord (Numeral.runLength? isVersionChar) cs
  | .stringText _ | .commandText _ => none

/-- What is found is found by the part of the scanner for such a terminal. -/
theorem plain?_found (h : plain? fe expect cs = some found) :
    plainAs? fe expect cs found.1 = some found := by
  have byClass : ∀ {t : Terminal} {f : List Char → Option Nat},
      plainAs? fe expect cs t = class? expect t f cs → class? expect t f cs = some found →
      plainAs? fe expect cs found.1 = some found := by
    intro t f part h
    rw [(class?_eq_some h).2.1, part, h]
  simp only [plain?, Option.orElse_eq_orElse, Option.orElse_eq_or, Option.or_eq_some_iff] at h
  rcases h with h | ⟨-, h | ⟨-, h | ⟨-, h | ⟨-, h | ⟨-, h | ⟨-, h | ⟨-, h | ⟨-, h⟩⟩⟩⟩⟩⟩⟩⟩
  · obtain ⟨-, kind, eq, -⟩ := number?_eq_some h
    rw [eq]
    exact h
  · exact byClass rfl h
  · exact byClass rfl h
  · rcases word?_kind h with ⟨k, eq⟩ | eq
    · rw [eq]
      exact h
    · rw [eq]
      exact h
  · exact byClass rfl h
  · exact byClass rfl h
  · exact byClass rfl h
  · exact byClass rfl h
  · obtain ⟨s, eq⟩ := symbol?_kind h
    rw [eq]
    exact h

/-- What is found where no literal text starts is no literal text. -/
theorem plain?_eq_some (h : plain? fe expect cs = some found) :
    Parser.isLiteral found.1 = false := by
  obtain ⟨t, n⟩ := found
  have part := plain?_found h
  cases t with
  | stringText q => cases part
  | commandText style => cases part
  | _ => rfl

end Scan

/-! ## Finding a token -/

/-- Behind a gap, the characters of a token are found before the rest of a text. Literal text comes
first, and without a gap. -/
def FrontEnd.Reads (fe : FrontEnd) (expect : Expect) (gap : List Char) (kind : Terminal)
    (chars rest : List Char) : Prop :=
  (gap = [] ∧ Scan.literal? expect (chars ++ rest) = some (kind, chars.length)) ∨
    (Scan.literal? expect (gap ++ (chars ++ rest)) = none ∧
      Scan.layoutLength false (gap ++ (chars ++ rest)) = gap.length ∧
      Scan.plain? fe expect (chars ++ rest) = some (kind, chars.length))

variable {fe : FrontEnd} {expect : Expect}

/-- No token is empty. -/
theorem FrontEnd.Reads.pos {gap chars rest : List Char} {kind : Terminal}
    (h : fe.Reads expect gap kind chars rest) : 0 < chars.length := by
  rcases h with ⟨-, found⟩ | ⟨-, -, found⟩
  · exact (Scan.literal?_eq_some found).2.2.1
  · exact ((Scan.steady_plain fe expect).fits found).1

/-- A token other than literal text does not end with a line break. -/
theorem FrontEnd.Reads.ends {gap chars rest : List Char} {kind : Terminal}
    (h : fe.Reads expect gap kind chars rest) (calm : Parser.isLiteral kind = false) :
    ∀ c, chars.getLast? = some c → Scan.isBreak c = false := by
  rcases h with ⟨-, found⟩ | ⟨-, -, found⟩
  · rw [(Scan.literal?_eq_some found).2.1] at calm
    cases calm
  · have ends := (Scan.steady_plain fe expect).ends found
    rwa [List.take_left] at ends

/-- The next token, its gap, and the rest of the text make up the text. -/
theorem next_eq_some {c c' : Cursor} {t : Token} :
    fe.next expect c = .ok (some t, c') ↔
      ∃ gap, c.rest = gap ++ (t.chars ++ c'.rest) ∧ t.start = c.pos + gap.length ∧
        c'.pos = t.stop ∧ fe.Reads expect gap t.kind t.chars c'.rest := by
  obtain ⟨pos, rest⟩ := c
  obtain ⟨pos', rest'⟩ := c'
  obtain ⟨kind, chars, start⟩ := t
  simp only [FrontEnd.next, FrontEnd.Reads, Token.stop]
  constructor
  -- what the scanner does, case by case, gives the division of the text
  · intro h
    split at h
    · rename_i found literal
      have fits := Scan.literal?_eq_some literal
      simp only [Scan.takeToken, Cursor.advance] at h
      cases h
      refine ⟨[], by simp, by simp, by simp [fits.2.2.2], .inl ⟨rfl, ?_⟩⟩
      simpa [fits.2.2.2] using literal
    · rename_i none
      split at h
      · cases h
      · split at h
        · rename_i found plain
          have fits := (Scan.steady_plain fe expect).fits plain
          simp only [Scan.takeToken, Cursor.advance] at h plain fits
          have le := Scan.layoutLength_le false rest
          cases h
          refine ⟨rest.take (Scan.layoutLength false rest), ?_, ?_, ?_, .inr ?_⟩
          · rw [List.take_append_drop, List.take_append_drop]
          · rw [List.length_take, Nat.min_eq_left le]
          · rw [List.length_take, Nat.min_eq_left fits.2]
          · rw [List.take_append_drop, List.take_append_drop]
            refine ⟨none, ?_, ?_⟩
            · rw [List.length_take, Nat.min_eq_left le]
            · rw [List.length_take, Nat.min_eq_left fits.2]
              exact plain
        · cases h
  -- and a text so divided leaves the scanner no choice
  · rintro ⟨gap, rfl, rfl, rfl, ⟨rfl, found⟩ | ⟨none, layout, found⟩⟩
    · simp only [List.nil_append, found]
      simp [Scan.takeToken, Cursor.advance]
    · have pos := ((Scan.steady_plain fe expect).fits found).1
      have ne : chars ++ rest' ≠ [] := by
        rintro h
        rw [(List.append_eq_nil_iff.1 h).1] at pos
        cases pos
      simp only [none, layout, Cursor.advance, List.drop_left]
      rw [if_neg (by simpa using ne), found]
      simp [Scan.takeToken, Cursor.advance, Nat.add_assoc]

/-- The end of a text is found where only layout is left. -/
theorem next_eq_none {c c' : Cursor} :
    fe.next expect c = .ok (none, c') ↔
      Scan.literal? expect c.rest = none ∧ Scan.layoutLength false c.rest = c.rest.length ∧
        c' = ⟨c.pos + c.rest.length, []⟩ := by
  obtain ⟨pos, rest⟩ := c
  simp only [FrontEnd.next]
  have le := Scan.layoutLength_le false rest
  constructor
  · intro h
    split at h
    · cases h
    · rename_i none
      split at h
      · rename_i empty
        have eq : Scan.layoutLength false rest = rest.length := by
          simp [Cursor.advance] at empty
          omega
        cases h
        exact ⟨none, eq, by simp [Cursor.advance, eq]⟩
      · split at h <;> cases h
  · rintro ⟨none, layout, rfl⟩
    simp [none, layout, Cursor.advance]

/-- A scanner leaves less of the text than there was. -/
theorem forward_next (fe : FrontEnd) : Parser.Forward fe.next := by
  intro after c c' t h
  obtain ⟨gap, eq, -, -, reads⟩ := next_eq_some.1 h
  have pos := reads.pos
  rw [eq, List.length_append, List.length_append]
  omega

/-! ## Tokens of a text

A state that is `Sound` owes all it has to one text. That the token ahead was found by the scanner
is part of it, since later modules ask what was looked for at that place. -/

/-- The cursor stands in the text. -/
structure Cursor.On (c : Cursor) (cs : List Char) : Prop where
  le : c.pos ≤ cs.length
  eq : c.rest = cs.drop c.pos

/-- The token is a stretch of the text. -/
structure Token.On (t : Token) (cs : List Char) : Prop where
  pos : t.start < t.stop
  le : t.stop ≤ cs.length
  eq : t.chars = (cs.drop t.start).take t.chars.length
  ends : Parser.isLiteral t.kind = false →
    ∀ c, t.chars.getLast? = some c → Scan.isBreak c = false

/-- A token that is found is a stretch of the text behind the cursor. -/
theorem next_some_on {cs : List Char} {c c' : Cursor} {t : Token}
    (h : fe.next expect c = .ok (some t, c')) (on : c.On cs) :
    t.On cs ∧ c'.On cs ∧ c.pos ≤ t.start ∧ t.stop = c'.pos := by
  obtain ⟨gap, eq, start, pos', reads⟩ := next_eq_some.1 h
  rw [on.eq] at eq
  have pos := reads.pos
  have behind : cs.drop t.start = t.chars ++ c'.rest := by
    rw [start, ← List.drop_drop, eq, List.drop_left]
  have rest : cs.drop t.stop = c'.rest := by
    rw [Token.stop, ← List.drop_drop, behind, List.drop_left]
  have le : t.stop ≤ cs.length := by
    have length := congrArg List.length eq
    simp only [List.length_drop, List.length_append] at length
    have := on.le
    rw [Token.stop]
    omega
  refine ⟨⟨?_, le, ?_, reads.ends⟩, ⟨by rw [pos']; exact le, by rw [pos', rest]⟩, ?_, pos'.symm⟩
  · rw [Token.stop]
    omega
  · rw [behind, List.take_left]
  · omega

/-- At the end of the text the cursor is still in it. -/
theorem next_none_on {cs : List Char} {c c' : Cursor}
    (h : fe.next expect c = .ok (none, c')) (on : c.On cs) : c'.On cs ∧ c.pos ≤ c'.pos := by
  obtain ⟨-, -, rfl⟩ := next_eq_none.1 h
  have le := on.le
  rw [on.eq, List.length_drop, Nat.add_sub_cancel' le]
  exact ⟨⟨Nat.le_refl _, by simp⟩, le⟩

namespace Parser

namespace State

/-- Where the text ahead of a state starts. -/
def front (s : State) : Nat :=
  match s.ahead with
  | some t => t.start
  | none => s.cursor.pos

/-- Where the last token taken ends. -/
def back (s : State) : Nat := (s.last.map Range.stop).getD 0

/-- The state stands in the text: what is ahead of it has been found there, behind the last token
taken. -/
structure Sound (fe : FrontEnd) (cs : List Char) (s : State) : Prop where
  cursor : s.cursor.On cs
  found : ∃ (A : Expect) (c : Cursor), c.On cs ∧ fe.next A c = .ok (s.ahead, s.cursor)
  ordered : s.back ≤ s.front

/-- The token ahead of a state has been found in the text, right in front of the cursor. -/
theorem Sound.ahead {fe : FrontEnd} {cs : List Char} {s : State} (h : s.Sound fe cs) {t : Token}
    (ahead : s.ahead = some t) : t.On cs ∧ t.stop = s.cursor.pos := by
  obtain ⟨A, c, on, found⟩ := h.found
  rw [ahead] at found
  obtain ⟨token, -, -, stop⟩ := next_some_on found on
  exact ⟨token, stop⟩

/-- The front of a state is a position of the text. -/
theorem front_le {fe : FrontEnd} {cs : List Char} {s : State} (h : s.Sound fe cs) :
    s.front ≤ cs.length := by
  unfold front
  split
  · rename_i t ahead
    obtain ⟨on, -⟩ := h.ahead ahead
    exact Nat.le_trans (Nat.le_of_lt on.pos) on.le
  · exact h.cursor.le

/-- One state is not behind another. -/
structure Before (s s' : State) : Prop where
  front : s.front ≤ s'.front
  back : s.back ≤ s'.back

theorem Before.refl (s : State) : s.Before s := ⟨Nat.le_refl _, Nat.le_refl _⟩

theorem Before.trans {s t u : State} (st : s.Before t) (tu : t.Before u) : s.Before u :=
  ⟨Nat.le_trans st.front tu.front, Nat.le_trans st.back tu.back⟩

end State

variable {cs : List Char} {s s' : State}

/-- One step takes the token ahead, and the next state stands behind it. -/
theorem Run.step_sound {x : Step} (sound : s.Sound fe cs) (run : Run fe.next s [x] s') :
    x.token.On cs ∧ s.front = x.token.start ∧ s'.back = x.token.stop ∧ s'.Sound fe cs := by
  obtain ⟨ahead, cursor, last⟩ := s
  cases run with
  | cons taken next rest =>
    rename_i found cursor'
    cases run_nil.1 rest
    cases taken
    obtain ⟨on, stop⟩ := sound.ahead rfl
    refine ⟨on, rfl, rfl, ?_⟩
    cases found with
    | none =>
      obtain ⟨on', le⟩ := next_none_on next sound.cursor
      refine ⟨on', ⟨_, _, sound.cursor, next⟩, ?_⟩
      show x.token.stop ≤ cursor'.pos
      simp only at stop le
      omega
    | some t =>
      obtain ⟨found, on', le, stop'⟩ := next_some_on next sound.cursor
      refine ⟨on', ⟨_, _, sound.cursor, next⟩, ?_⟩
      show x.token.stop ≤ t.start
      simp only at stop le
      omega

/-- A run goes forwards in the text. -/
theorem Run.sound {xs : List Step} (sound : s.Sound fe cs) (run : Run fe.next s xs s') :
    s'.Sound fe cs ∧ s.Before s' := by
  induction xs generalizing s with
  | nil =>
    cases run_nil.1 run
    exact ⟨sound, .refl _⟩
  | cons x xs ih =>
    obtain ⟨t, first, rest⟩ := run_cons.1 run
    obtain ⟨on, front, back, sound'⟩ := Run.step_sound sound first
    obtain ⟨sound'', before⟩ := ih sound' rest
    have pos := on.pos
    have ordered := sound.ordered
    have ordered' := sound'.ordered
    exact ⟨sound'', State.Before.trans ⟨by omega, by omega⟩ before⟩

/-- The steps of a run reach from the front of the one state to the back of the other. -/
theorem Run.spanOf_eq {xs : List Step} (sound : s.Sound fe cs) (run : Run fe.next s xs s')
    (ne : xs ≠ []) : spanOf xs = ⟨s.front, s'.back⟩ := by
  induction xs generalizing s with
  | nil => exact absurd rfl ne
  | cons x xs ih =>
    obtain ⟨t, first, rest⟩ := run_cons.1 run
    obtain ⟨on, front, back, sound'⟩ := Run.step_sound sound first
    by_cases empty : xs = []
    · subst empty
      cases run_nil.1 rest
      rw [spanOf_single, front, back]
      rfl
    · rw [spanOf_cons x empty, ih sound' rest empty, front]
      rfl

/-- The steps of a run that is not empty are ordered in the text. -/
theorem Run.front_lt_back {xs : List Step} (sound : s.Sound fe cs) (run : Run fe.next s xs s')
    (ne : xs ≠ []) : s.front < s'.back := by
  obtain ⟨x, xs, rfl⟩ := List.exists_cons_of_ne_nil ne
  obtain ⟨t, first, rest⟩ := run_cons.1 run
  obtain ⟨on, front, back, sound'⟩ := Run.step_sound sound first
  have before := (Run.sound sound' rest).2.back
  have pos := on.pos
  omega

end Parser

end Wdl
