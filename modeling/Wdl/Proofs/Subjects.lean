import Wdl.Proofs.RoundTrips

/-!
# Wdl.Proofs.Subjects -- numbers that are accessed

A number in parentheses can be accessed, but its rendering has no parentheses there. So the access
is read back just if the text of the number stands for itself in front of it: the sign of a negative
number would be applied to the whole access, infinity would be a name, and digits in front of a
point would be those of a fraction.

* `Expr.Accessed rules n c e` says that `e` is a list of accesses on the number `n`, of which the
  first starts with `c`, and `Expr.Accessible c n` that the text of `n` stands for itself in front
  of it.
* Where it does, the tokens of the rendering are found and what they write is what was rendered
  (`Expr.Accessed.found_restored`).
* The other way round, the first token of the rendering is found and compared with what an access on
  a number can start with (`heads_of_parsed`); so the number must have been accessible
  (`Expr.accessible_of_parsed`).

`parseExpr_render_accessed` is both directions together.
-/

namespace Wdl

open Scan
open Wdl.Parser (Step Place Level Script Suffix Writes unaryOp? startsPrimary)
open Numeral (scanSeparately)

variable {fe : FrontEnd} {rules : Rules} {n e e' : Expr} {c : Char}

/-! ## Numbers and the accesses on them

The constructors of `Expr.Accessed` are those of accesses, once for the innermost, which is on the
number and decides the character, and once for those around it. -/

/-- The text of a number stands for itself in front of an access that starts with a character: it
has no sign, and is none of digits in front of a point. -/
def Expr.Accessible (c : Char) : Expr → Prop
  | .int _ value radix => 0 ≤ value ∧ (c = '.' → radix = .hexadecimal)
  | .float _ x => x.negative = false ∧ x.Readable
  | _ => False

/-- The accesses on an expression of which the first starts with a character; what stands between
brackets is sayable. -/
inductive Expr.Accessed (rules : Rules) (n : Expr) : Char → Expr → Prop
  | member (r : Range) (name : String) : Accessed rules n '.' (.get r n name)
  | index (r : Range) {i : Expr} : (Node.expr i).Everywhere (Node.Sayable rules) →
      Accessed rules n '[' (.index r n i)
  | thenMember {c : Char} {e : Expr} (r : Range) (name : String) : Accessed rules n c e →
      Accessed rules n c (.get r e name)
  | thenIndex {c : Char} {e : Expr} (r : Range) {i : Expr} : Accessed rules n c e →
      (Node.expr i).Everywhere (Node.Sayable rules) → Accessed rules n c (.index r e i)

namespace Expr.Accessed

/-- Accesses start with a point or a bracket. -/
theorem accessor (h : n.Accessed rules c e) : c ∈ accessors := by
  induction h with
  | member r name => decide
  | index r said => decide
  | thenMember r name h ih => exact ih
  | thenIndex r h said ih => exact ih

/-- Accesses are no number. -/
theorem not_number (h : n.Accessed rules c e) : e.isNumber = false := by
  cases h <;> rfl

/-- Accesses are accessed without parentheses. -/
theorem bare (h : n.Accessed rules c e) : e.needsParens Expr.accessBinding false = false := by
  cases h <;> rfl

end Expr.Accessed

/-- Numbers are accessed without parentheses. -/
theorem Expr.bare_of_number (number : n.isNumber = true) :
    n.needsParens Expr.accessBinding false = false := by
  cases n with
  | int r value radix => rfl
  | float r x => rfl
  | _ => cases number

/-! ## Numbers that are found and restored

-/

/-- No number goes on with the character of an access, a point apart. -/
theorem cut_of_head {rest : List Char} (mem : c ∈ accessors) (head : rest.head? = some c) :
    Cut rest := by
  have each : accessors.all (fun c => !isNameChar c && !isDecimalDigit c) = true := by decide
  intro d hd
  rw [head] at hd
  cases hd
  simpa only [Bool.and_eq_true, Bool.not_eq_true'] using List.all_eq_true.1 each c mem

/-- The numeral of an integer is found in front of an access, if no digits stand in front of a
point. -/
theorem scanSeparately_accessed {radix : Radix} {rest : List Char} (k : Nat) (mem : c ∈ accessors)
    (head : rest.head? = some c) (pointed : c = '.' → radix = .hexadecimal) :
    scanSeparately ((numeralOf radix k).2 ++ rest) =
      some ((numeralOf radix k).1, (numeralOf radix k).2.length) := by
  have cut := cut_of_head mem head
  by_cases point : c = '.'
  · obtain rfl := pointed point
    have digits : ∀ d ∈ digitChars 16 k, isHexDigit d = true :=
      digitChars_each (by decide) (fun j h => by rw [isHexDigit, hexDigit?_digitOf h]; rfl) k
    exact Numeral.scanSeparately_hexadecimal (.inl rfl) (digitChars_ne_nil (by decide) k) digits cut
  · refine scanSeparately_numeralOf radix k fun d hd => ⟨(cut d hd).1, (cut d hd).2, ?_⟩
    rintro rfl
    rw [head] at hd
    exact point (Option.some.inj hd)

/-- A number that is accessible is found in front of the access. -/
theorem Expr.Accessible.found (h : n.Accessible c) (mem : c ∈ accessors) : n.FoundBefore fe c := by
  intro A gap place ls rest hA spacing _ head after
  have behind : Legible fe Expect.afterNumber ls rest := after _ (by cases place <;> decide)
  -- there are no parentheses, and no sign either
  have numeral : ∀ {kind : NumeralKind} {chars : List Char},
      scanSeparately (chars ++ (spelled ls ++ rest)) = some (kind, chars.length) →
      Legible fe A ([⟨gap, .number kind, chars, Expect.afterNumber⟩] ++ ls) rest := fun scan =>
    ⟨reads_number (ordinary_starts hA) spacing.layout (expr_subset hA (by decide)) scan, behind⟩
  cases n with
  | int r value radix =>
    obtain ⟨positive, pointed⟩ := h
    have sign : decide (value < 0) = false := by simpa using positive
    show Legible fe A (numberLexemes gap (decide (value < 0)) (numeralOf radix value.natAbs) ++ ls)
      rest
    rw [sign]
    exact numeral (scanSeparately_accessed _ mem head pointed)
  | float r x =>
    obtain ⟨sign, finite, -⟩ := h
    show Legible fe A (numberLexemes gap x.negative (.float, x.magnitudeText) ++ ls) rest
    rw [sign]
    exact numeral (Numeral.scanSeparately_float (Binary64.isFloat_magnitudeText finite)
      (cut_of_head mem head))
  | _ => exact h.elim

/-- A number that is accessible is written by the tokens in front of an access. -/
theorem Expr.Accessible.restored (h : n.Accessible c) (lawful : (Node.expr n).Lawful rules)
    (rules' : Rules) : n.SubjectRestored rules' := by
  intro gap place at_
  cases n with
  | int r value radix =>
    have sign : decide (value < 0) = false := by simpa using h.1
    show Writes rules' .accessed place (stepsFrom at_
      (numberLexemes gap (decide (value < 0)) (numeralOf radix value.natAbs))) _
    rw [sign]
    refine (writes_numeral (fun r => ?_) gap place at_).toAccessed
    obtain ⟨radix', eq⟩ := Build.numberValue_numeralOf r radix lawful
    exact ⟨_, eq, view_int (Int.natAbs_of_nonneg h.1) _ _ _ _⟩
  | float r x =>
    obtain ⟨sign, readable⟩ := h
    show Writes rules' .accessed place (stepsFrom at_
      (numberLexemes gap x.negative (.float, x.magnitudeText))) _
    rw [sign]
    refine (writes_numeral (fun r => ⟨_, rfl, ?_⟩) gap place at_).toAccessed
    rw [Build.NumberValue.expr, readable.2, ← sign, Expr.view, Expr.view]
  | _ => exact h.elim

/-- Accesses on a number that is accessible are found, and written by their tokens. -/
theorem Expr.Accessed.found_restored (h : n.Accessed rules c e) (can : n.Accessible c)
    (spoken : (Node.expr e).Everywhere (Node.Spoken rules))
    (lawful : (Node.expr e).Everywhere (Node.Lawful rules)) :
    e.Found fe ∧ e.Restored ⟨fe, rules.reserved, rules.names⟩ := by
  have mem := h.accessor
  have written : ∀ {i : Expr}, (Node.expr i).Everywhere (Node.Writable rules) →
      i.Restored ⟨fe, rules.reserved, rules.names⟩ := by
    intro i writable
    have writable' : (Node.expr i).Everywhere (Node.Writable ⟨fe, rules.reserved, rules.names⟩) :=
      writable.imp fun n h => h
    exact writable'.restored
  -- the innermost access is on the number, which need not be writable in other places; the outer
  -- ones are on accesses
  induction h with
  | member r name =>
    have law := (lawful.child (m := .expr n) (by simp [Node.children, Expr.children])).here
    have said := spoken.here
    exact ⟨Expr.found_get r (can.found mem) said.1, Expr.restored_get r (can.restored law _) said.2⟩
  | @index r i inner =>
    have below : Node.expr i ∈ (Node.expr (.index r n i)).children := by
      simp [Node.children, Expr.children]
    have law := (lawful.child (m := .expr n) (by simp [Node.children, Expr.children])).here
    have writable := inner.writable (spoken.child below) (lawful.child below) trivial
    exact ⟨Expr.found_index r (can.found mem) writable.found,
      Expr.restored_index r (can.restored law _) (written writable)⟩
  | @thenMember c e r name h ih =>
    have below : Node.expr e ∈ (Node.expr (.get r e name)).children := by
      simp [Node.children, Expr.children]
    obtain ⟨found, restored⟩ := ih can (spoken.child below) (lawful.child below) mem
    have said := spoken.here
    exact ⟨Expr.found_get r (found.before h.not_number (by decide)) said.1,
      Expr.restored_get r (restored.subject h.not_number) said.2⟩
  | @thenIndex c e r i h inner ih =>
    have below : Node.expr e ∈ (Node.expr (.index r e i)).children := by
      simp [Node.children, Expr.children]
    have below' : Node.expr i ∈ (Node.expr (.index r e i)).children := by
      simp [Node.children, Expr.children]
    obtain ⟨found, restored⟩ := ih can (spoken.child below) (lawful.child below) mem
    have writable := inner.writable (spoken.child below') (lawful.child below') trivial
    exact ⟨Expr.found_index r (found.before h.not_number (by decide)) writable.found,
      Expr.restored_index r (restored.subject h.not_number) (written writable)⟩

/-! ## What a number is read as

Accesses are built from the inside, so what an expression accesses at last is the operand they were
written behind. `Expr.root` reads it off the tree, and `Parser.Script.heads` off the first token. -/

/-- What an expression accesses at last. -/
def Expr.root : Expr → Expr
  | .get _ e _ => e.root
  | .index _ e _ => e.root
  | e => e

/-- A number accesses nothing. -/
theorem Expr.root_of_number (number : e.isNumber = true) : e.root = e := by
  cases e with
  | get r e member => cases number
  | index r e i => cases number
  | _ => rfl

/-- Accesses are put around what is accessed at last. -/
theorem Build.root_nestAccesses (start : Nat) (e : Expr) (as : List Build.Access) :
    (Build.nestAccesses start e as).root = e.root := by
  induction as generalizing e with
  | nil => rfl
  | cons a as ih =>
    rw [Build.nestAccesses, List.foldl_cons]
    refine (ih _).trans ?_
    cases a <;> rfl

/-- A step writes the number that an expression accesses at last, or opens parentheses. -/
def Parser.Step.Heads (e : Expr) (x : Step) : Prop :=
  x.token.kind = .symbol .parenOpen ∨ ∃ k r r' value, x.token.kind = .number k ∧
    Build.numberValue ⟨r, k, x.token.chars⟩ = .ok value ∧ e.root = value.expr r'

/-- The first token of a primary that accesses a number at last is that number, or opens
parentheses. -/
theorem Parser.Script.heads_primary {place : Place} {σ : Surface.Expr} {x : Step} {xs : List Step}
    (h : Script .primary place σ (x :: xs)) (built : Build.expr rules σ = .ok e)
    (number : e.root.isNumber = true) : x.Heads e := by
  cases h with
  | boolean t value kind =>
    cases built
    cases number
  | null t kind =>
    cases built
    cases number
  -- the only primaries that access a number at last are numbers and parentheses
  | number k t kind =>
    obtain ⟨value, eq, rfl⟩ := by simpa [Build.expr] using built
    refine .inr ⟨k, _, t.range, value, kind, eq, ?_⟩
    cases value <;> rfl
  | name t kind =>
    obtain ⟨-, rfl⟩ := by simpa [Build.expr] using built
    cases number
  | string q start close pieces opened closed fits _ =>
    obtain ⟨raw, -, parts, -, rfl⟩ := by simpa [Build.expr] using built
    cases number
  | array bracket close items opened closed _ separated =>
    obtain ⟨es, -, rfl⟩ := by simpa [Build.expr] using built
    cases number
  | group paren close opened closed _ => exact .inl opened
  | pair paren comma close opened between closed _ _ => exact .inl opened
  | map brace close items opened closed colons _ _ separated =>
    obtain ⟨es, -, rfl⟩ := by simpa [Build.expr] using built
    cases number
  | choice kwIf kwThen kwElse hif hthen helse _ _ _ =>
    obtain ⟨a, -, b, -, c, -, rfl⟩ := by simpa [Build.expr] using built
    cases number
  | apply name paren close arguments named opened closed _ separated =>
    obtain ⟨es, -, rfl⟩ := by simpa [Build.expr] using built
    cases number
  | struct name brace close ms named opened closed fits _ separated =>
    obtain ⟨es, -, typeName, -, rfl⟩ := by simpa [Build.expr] using built
    cases number

/-- The first token of an access that accesses a number at last is that number, or opens
parentheses. -/
theorem Parser.Script.heads {σ : Surface.Expr} {x : Step} {xs : List Step}
    (h : Script .expr .plain σ (x :: xs)) (built : Build.expr rules σ = .ok e)
    (number : e.root.isNumber = true) (other : e.isNumber = false) : x.Heads e := by
  generalize eq : x :: xs = ys at h
  cases h with
  | single h =>
    cases h with
    -- accesses behind a primary, of which the first token is that of the primary
    | unsigned h =>
      obtain ⟨σ₀, xs₀, suffixes, primary, rfl, rfl, -⟩ := h.accessed_cases
      obtain ⟨b, as, hb, -, rfl⟩ := built_accessedBy.1 built
      rw [Build.root_nestAccesses] at number
      obtain ⟨y, ys, rfl⟩ := List.exists_cons_of_ne_nil primary.ne_nil
      cases eq
      have heads := primary.heads_primary hb number
      rwa [Step.Heads, ← Build.root_nestAccesses σ₀.range.start b as] at heads
    -- signs in front of a number are folded into it, and in front of anything else they stay
    | signed signs ne ops _ =>
      rcases built_signed ne built with ⟨value, r, rfl⟩ | ⟨r, op, b, rfl⟩
      · cases value <;> cases other
      · cases number
  | chain links ne _ _ _ =>
    obtain ⟨r, op, left, right, rfl⟩ := built_chain ne built
    cases number

/-! ## Contents of accesses

What is read again is only known to have the same content. `get_of_view` and `index_of_view` say
that it is then an access itself, on something of the same content. -/

/-- What has the content of an access to a member is one. -/
theorem get_of_view {r : Range} {name : String}
    (h : e'.view.normal = (Expr.get r e name).view.normal) :
    ∃ r' b name', e' = .get r' b name' ∧ b.view.normal = e.view.normal := by
  cases e' with
  | get r' b name' =>
    refine ⟨r', b, name', rfl, ?_⟩
    simp only [Expr.view, View.normal, View.normalEntries] at h
    grind
  | _ => simp [Expr.view, View.normal] at h

/-- What has the content of an access by index is one. -/
theorem index_of_view {r : Range} {i : Expr}
    (h : e'.view.normal = (Expr.index r e i).view.normal) :
    ∃ r' b i', e' = .index r' b i' ∧ b.view.normal = e.view.normal := by
  cases e' with
  | index r' b i' =>
    refine ⟨r', b, i', rfl, ?_⟩
    simp only [Expr.view, View.normal, View.normalEntries] at h
    grind
  | _ => simp [Expr.view, View.normal] at h

/-- What has the content of a number is one. -/
theorem number_of_view (number : n.isNumber = true) (h : e.view.normal = n.view.normal) :
    e.isNumber = true := by
  cases n with
  | int r value radix => cases e <;> first | rfl | simp [Expr.view, View.normal] at h
  | float r x => cases e <;> first | rfl | simp [Expr.view, View.normal] at h
  | _ => cases number

/-- What has the content of accesses on a number accesses a number of that content. -/
theorem Expr.Accessed.root_of_view (h : n.Accessed rules c e) (number : n.isNumber = true)
    (same : e'.view.normal = e.view.normal) :
    e'.isNumber = false ∧ e'.root.isNumber = true ∧ e'.root.view.normal = n.view.normal := by
  have base : ∀ {b : Expr}, b.view.normal = n.view.normal →
      b.root.isNumber = true ∧ b.root.view.normal = n.view.normal := by
    intro b view
    have isNumber := number_of_view number view
    rw [Expr.root_of_number isNumber]
    exact ⟨isNumber, view⟩
  induction h generalizing e' with
  | member r name =>
    obtain ⟨r', b, name', rfl, view⟩ := get_of_view same
    have root := base view
    exact ⟨rfl, root⟩
  | index r inner =>
    obtain ⟨r', b, i', rfl, view⟩ := index_of_view same
    have root := base view
    exact ⟨rfl, root⟩
  | thenMember r name h ih =>
    obtain ⟨r', b, name', rfl, view⟩ := get_of_view same
    exact ⟨rfl, (ih view).2⟩
  | thenIndex r h inner ih =>
    obtain ⟨r', b, i', rfl, view⟩ := index_of_view same
    exact ⟨rfl, (ih view).2⟩

/-- The rendering of accesses on a number is that of the number, with the accesses behind it. -/
theorem Expr.Accessed.render (h : n.Accessed rules c e) (number : n.isNumber = true) :
    ∃ more, e.render.chars = n.render.chars ++ c :: more := by
  have bare := Expr.bare_of_number number
  induction h with
  | member r name => exact ⟨name.toList, by simp [Expr.render, bare, parenthesize]⟩
  | @index r i inner =>
    exact ⟨i.render.chars ++ [']'], by simp [Expr.render, bare, parenthesize]⟩
  | thenMember r name h ih =>
    obtain ⟨more, eq⟩ := ih
    exact ⟨more ++ '.' :: name.toList, by simp [Expr.render, h.bare, parenthesize, eq]⟩
  | @thenIndex c e r i h inner ih =>
    obtain ⟨more, eq⟩ := ih
    exact ⟨more ++ '[' :: (i.render.chars ++ [']']),
      by simp [Expr.render, h.bare, parenthesize, eq]⟩

/-- A node that is sayable has no surrogates in its texts. -/
theorem Node.Sayable.plain {m : Node} (h : m.Sayable rules) : m.Plain := by
  cases m with
  | placeholder p => exact fun o ho => (h.1 o ho).1
  | expr e =>
    cases e with
    | string r parts => exact fun text mem => (h text mem).2.1
    | struct r members typeName => exact fun m hm => (h m hm).1
    | _ => trivial
  | _ => trivial

/-- No text in accesses on a number has a surrogate. -/
theorem Expr.Accessed.plain (h : n.Accessed rules c e) (number : n.isNumber = true) :
    (Node.expr e).Everywhere Node.Plain := by
  have leaf : (Node.expr n).Everywhere Node.Plain := by
    cases n with
    | int r value radix => exact .intro trivial (by simp [Node.children, Expr.children])
    | float r x => exact .intro trivial (by simp [Node.children, Expr.children])
    | _ => cases number
  induction h with
  | member r name => exact .intro trivial (by simpa [Node.children, Expr.children] using leaf)
  | index r inner =>
    have said := inner.imp fun _ => Node.Sayable.plain
    exact .intro trivial (by simpa [Node.children, Expr.children] using ⟨leaf, said⟩)
  | thenMember r name h ih =>
    exact .intro trivial (by simpa [Node.children, Expr.children] using ih)
  | thenIndex r h inner ih =>
    have said := inner.imp fun _ => Node.Sayable.plain
    exact .intro trivial (by simpa [Node.children, Expr.children] using ⟨ih, said⟩)

/-! ## The first token of a rendering

Nothing is assumed here of the rest of the text: what the first token is found as already decides
the matter. -/

/-- Decimal digits in front of a point are found as a floating-point number. -/
theorem scanSeparately_point {digits : List Char} (ne : digits ≠ [])
    (all : ∀ d ∈ digits, isDecimalDigit d = true) (more : List Char) :
    ∃ m, scanSeparately (digits ++ '.' :: more) = some (.float, m) := by
  have run : Numeral.runLength isDecimalDigit (digits ++ '.' :: more) = digits.length :=
    Numeral.runLength_ended all (by simp; decide)
  have some_ : digits.length ≠ 0 := fun zero => ne (List.length_eq_zero_iff.1 zero)
  have point : Numeral.pointLength? (digits ++ '.' :: more) =
      some (digits.length + 1 + Numeral.runLength isDecimalDigit more) := by
    unfold Numeral.pointLength?
    simp only [run, List.drop_left]
    rw [if_neg fun both => some_ both.1]
  obtain ⟨m, float⟩ : ∃ m, Numeral.lengthIn? .float (digits ++ '.' :: more) = some m := by
    rw [Numeral.lengthIn?, Numeral.fractionLength?, point, Option.map_some, Option.some_or]
    exact ⟨_, rfl⟩
  refine ⟨m, ?_⟩
  simp only [scanSeparately, Numeral.kinds, List.findSome?_cons, float, Option.map_some]

/-- Except in hexadecimal notation, an integer is written in decimal digits. -/
theorem isDecimalDigit_numeralOf {radix : Radix} (other : radix ≠ .hexadecimal) (k : Nat) :
    (numeralOf radix k).2 ≠ [] ∧ ∀ d ∈ (numeralOf radix k).2, isDecimalDigit d = true := by
  have decimals := digitChars_each (b := 10) (by decide) (fun j h =>
    Numeral.isDecimalDigit_of_ascii (isAsciiDigit_digitOf h)) k
  have octals := digitChars_each (b := 8) (by decide) (fun j h =>
    Numeral.isDecimalDigit_of_ascii (isAsciiDigit_digitOf (Nat.lt_trans h (by decide)))) k
  cases radix with
  | hexadecimal => exact absurd rfl other
  | octal =>
    unfold numeralOf
    dsimp only
    split
    · exact ⟨by simp, List.forall_mem_singleton.2 (by decide)⟩
    · exact ⟨by simp, List.forall_mem_cons.2 ⟨by decide, octals⟩⟩
  | decimal => exact ⟨digitChars_ne_nil (by decide) k, decimals⟩

theorem Binary64.unsigned_eq {x : Binary64} (sign : x.negative = false) :
    { x with negative := false } = x := by
  rw [← sign]

/-- The normal form of a number without a sign is that number. -/
theorem View.normalFloat_unsigned {x : Binary64} (sign : x.negative = false) :
    View.normalFloat x = x := by
  unfold View.normalFloat
  split
  · exact Binary64.unsigned_eq sign
  · rfl

/-- A number that is read has no sign. -/
theorem Binary64.negative_ofChars (cs : List Char) : (Binary64.ofChars cs).negative = false := by
  unfold Binary64.ofChars Decimal.toBinary
  dsimp only
  split
  · rfl
  · split
    · rfl
    · rfl

/-- A text in which a number is accessed starts with a number or parentheses. -/
theorem heads_of_parsed {source : SourceText} {front behind : List Char} {kind : Terminal}
    (parsed : (parseExpr rules source).result = .ok e) (number : e.root.isNumber = true)
    (other : e.isNumber = false)
    (reads : rules.frontEnd.Reads Expect.expr [] kind front behind)
    (text : Parser.terminated source.chars = front ++ behind) :
    kind = .symbol .parenOpen ∨ ∃ k r r' value, kind = .number k ∧
      Build.numberValue ⟨r, k, front⟩ = .ok value ∧ e.root = value.expr r' := by
  obtain ⟨σ, ls, rest, legible, spells, script, built, -⟩ := parseExpr_legible parsed
  cases ls with
  | nil => exact absurd rfl script.ne_nil
  | cons l ls =>
    have heads := script.heads built number other
    obtain ⟨kinds, chars, -⟩ := legible.first reads (spells.symm.trans text)
    rw [← kinds, ← chars]
    exact heads

/-- A minus sign is found in front of anything. -/
theorem reads_minus (fe : FrontEnd) (rest : List Char) :
    fe.Reads Expect.expr [] (.symbol .minus) ['-'] rest :=
  reads_symbol (s := .minus) (by decide) (.nil false) (by decide) (clear_of_unrivalled (by decide))
    (by decide) (by simp)

section Accessible

variable {source : SourceText} {more : List Char}

/-- No sign stands in front of a number that is accessed. -/
theorem unsigned_of_parsed (parsed : (parseExpr rules source).result = .ok e)
    (other : e.isNumber = false) (root : e.root.isNumber = true) (rest : List Char) :
    Parser.terminated source.chars ≠ '-' :: rest := by
  intro signed
  rw [← List.singleton_append] at signed
  rcases heads_of_parsed parsed root other (reads_minus _ _) signed with h | ⟨k, r, r', value, h, -⟩
  · cases h
  · cases h

/-- An integer whose access is read back is accessible. -/
theorem int_accessible {r : Range} {value : Int} {radix : Radix}
    (parsed : (parseExpr rules source).result = .ok e) (other : e.isNumber = false)
    (root : e.root.isNumber = true)
    (same : e.root.view.normal = (Expr.int r value radix).view.normal)
    (text : Parser.terminated source.chars =
      (Expr.int r value radix).render.chars ++ c :: more) :
    (Expr.int r value radix).Accessible c := by
  rw [Expr.render, Text.chars_ofString, renderInt_eq] at text
  have positive : 0 ≤ value := by
    by_contra negative
    rw [if_pos (Int.not_le.1 negative)] at text
    exact unsigned_of_parsed parsed other root _ text
  refine ⟨positive, ?_⟩
  rintro rfl
  by_contra octal
  obtain ⟨ne, digits⟩ := isDecimalDigit_numeralOf octal value.natAbs
  -- the digits and the point are found as a floating-point number
  obtain ⟨m, scan⟩ := scanSeparately_point ne digits more
  rw [if_neg (Int.not_lt.2 positive), List.nil_append] at text
  generalize (numeralOf radix value.natAbs).2 ++ '.' :: more = whole at scan text
  have le : m ≤ whole.length := by
    have found : rules.frontEnd.scanNumber whole = some (.float, m) := by
      rw [FrontEnd.scanNumber_eq, scan]
    exact ((steady_number _).fits found).2
  have scan' : scanSeparately (whole.take m ++ whole.drop m) =
      some (.float, (whole.take m).length) := by
    rw [List.take_append_drop, List.length_take, Nat.min_eq_left le, scan]
  rw [← List.take_append_drop m whole] at text
  rcases heads_of_parsed parsed root other
    (reads_number (by decide) (.nil false) (by decide) scan') text with h | ⟨k, r, r', v, h, eq, hv⟩
  · cases h
  · cases h
    cases eq
    rw [hv] at same
    simp [Build.NumberValue.expr, Expr.view, View.normal] at same

/-- A floating-point number whose access is read back is accessible. -/
theorem float_accessible {r : Range} {x : Binary64} (mem : c ∈ accessors)
    (parsed : (parseExpr rules source).result = .ok e) (other : e.isNumber = false)
    (root : e.root.isNumber = true) (same : e.root.view.normal = (Expr.float r x).view.normal)
    (text : Parser.terminated source.chars = (Expr.float r x).render.chars ++ c :: more) :
    (Expr.float r x).Accessible c := by
  have cut : Cut (c :: more) := cut_of_head mem rfl
  rw [Expr.render, Text.chars_ofString, toText_eq] at text
  -- a sign in front would be applied to the accesses, which then were not at the root
  have sign : x.negative = false := by
    by_contra negative
    rw [if_pos (by simpa using negative)] at text
    exact unsigned_of_parsed parsed other root _ text
  rw [if_neg (by simp [sign]), List.nil_append] at text
  -- `inf` is found as a name
  have finite : x.isInfinite = false := by
    by_contra infinite
    rw [Binary64.magnitudeText, if_pos (by simpa using infinite)] at text
    have name : rules.frontEnd.Reads Expect.expr [] .name ['i', 'n', 'f'] (c :: more) :=
      reads_name (by decide) (by decide) (.nil false) (by unfold IsWord; decide)
        (fun d hd => (cut d hd).1) (isFree_of_spelling (by decide) _)
    rcases heads_of_parsed parsed root other name text with h | ⟨k, r, r', v, h, -⟩
    · cases h
    · cases h
  refine ⟨sign, finite, ?_⟩
  have scan := Numeral.scanSeparately_float (Binary64.isFloat_magnitudeText finite) cut
  rcases heads_of_parsed parsed root other
    (reads_number (by decide) (.nil false) (by decide) scan) text with h | ⟨k, r, r', v, h, eq, hv⟩
  · cases h
  · cases h
    cases eq
    rw [hv] at same
    have value : View.normalFloat (Binary64.ofChars x.magnitudeText) = View.normalFloat x := by
      simpa [Build.NumberValue.expr, Expr.view, View.normal, View.normalEntries] using same
    rwa [View.normalFloat_unsigned (Binary64.negative_ofChars _),
      View.normalFloat_unsigned sign, ← Binary64.unsigned_eq sign] at value

/-- A number whose access is read back is accessible. -/
theorem Expr.accessible_of_parsed (number : n.isNumber = true) (mem : c ∈ accessors)
    (parsed : (parseExpr rules source).result = .ok e) (other : e.isNumber = false)
    (root : e.root.isNumber = true) (same : e.root.view.normal = n.view.normal)
    (text : Parser.terminated source.chars = n.render.chars ++ c :: more) : n.Accessible c := by
  cases n with
  | int r value radix => exact int_accessible parsed other root same text
  | float r x => exact float_accessible mem parsed other root same text
  | _ => cases number

end Accessible

/-! ## Round trips -/

/-- The rendering of accesses on a number, if they were parsed, is parsed again, by either front
end, to accesses of the same content just if the number is accessible. -/
theorem parseExpr_render_accessed {source : SourceText}
    (parsed : (parseExpr rules source).result = .ok e) (number : n.isNumber = true)
    (accessed : n.Accessed rules c e) (fe : FrontEnd) (uri abspath : String) :
    (∃ written e', e.render = .ofString written ∧
      (parseExpr ⟨fe, rules.reserved, rules.names⟩ (.ofString written uri abspath)).result =
        .ok e' ∧
      (Node.expr e').same (.expr e) = true) ↔ n.Accessible c := by
  constructor
  · rintro ⟨written, e', rendered, again, same⟩
    obtain ⟨other, root, view⟩ := accessed.root_of_view number (View.same_iff.1 same)
    obtain ⟨more, text⟩ := accessed.render number
    rw [rendered, Text.chars_ofString] at text
    have terminated : ∃ more', Parser.terminated written.toList = n.render.chars ++ c :: more' := by
      unfold Parser.terminated
      split
      · exact ⟨more, text⟩
      · exact ⟨more ++ ['\n'], by rw [text]; simp⟩
    obtain ⟨more', text⟩ := terminated
    exact Expr.accessible_of_parsed number accessed.accessor again other root view text
  · intro can
    obtain ⟨σ, -, built⟩ := Parsed.ofSurface_eq_ok parsed
    have lawful := Build.lawful_expr rules σ (Builder.gives_check built)
    obtain ⟨found, restored⟩ := accessed.found_restored can (parseExpr_spoken parsed) lawful
    obtain ⟨e', again, view⟩ := restored.parse_render found uri abspath
    have plain : e.render.Plain := (accessed.plain number).plainlyRendered
    exact ⟨_, e', plain.ofString_shown.symm, again, View.same_iff.2 (congrArg View.normal view)⟩

/-- The sign of a negative number in front of brackets is read as that of the whole access. -/
example : ((parseExpr ⟨.tree, reservedWords, .none⟩
  (.ofString "(-1)[0]" "" "")).result.toOption.bind
    fun e => (parseExpr ⟨.tree, reservedWords, .none⟩
      (.ofString e.render.shown "" "")).result.toOption.map fun e' =>
        (Node.expr e').same (.expr e)) = some false := by
  decide +kernel

end Wdl
