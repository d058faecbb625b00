import Mathlib.Data.List.Chain
import Wdl.Proofs.Lawful
import Wdl.Proofs.Recognition

/-!
# Wdl.Proofs.Retrieval -- a scanner finds the tokens that a rendering is made of

`Node.Writable` says what a node must be for its rendering to say it: words are words and not
reserved, literal text opens no placeholder, numbers are in range and are not accessed. Below nodes
that are writable everywhere, each token of the rendering is found behind the one before, whatever
follows the whole as long as it does not go on with an expression.

* `Expr.Found fe e` is what is proved of every expression: its lexemes are legible wherever an
  expression may start (`starts`), in front of anything that does not belong to its last token
  (`Expr.Before`), if what follows is legible wherever an expression may end. So a list of
  expressions is put together from the back.
* Each kind of expression has its lemma, `Expr.found_array` and the like, and
  `Node.Everywhere.found` is the induction on the tree.
* `ItemFound` and `legible_separated` are about lists between brackets, `legible_parts` about the
  inside of strings.

The front end is a parameter throughout. It makes a difference to how numbers are scanned, which the
lemmas of `Wdl.Proofs.Notations` have dealt with.
-/

namespace Wdl

open Scan
open Wdl.Parser (Place endings)

variable {fe : FrontEnd} {rules : Rules} {A : Expect} {gap rest : List Char} {place : Place}
  {ls : List Lexeme}

/-! ## What can be written -/

/-- A word that may be a name. -/
def IsIdentifier (rules : Rules) (s : String) : Prop := IsWord s.toList ∧ s ∉ rules.reserved

/-- A text that may be a bare key of a struct literal. -/
def IsKey (rules : Rules) (key : Text) : Prop := key.Plain ∧ IsIdentifier rules key.shown

/-- A word that spells no keyword that is looked for. -/
def IsFree (A : Expect) (word : List Char) : Prop := ∀ k, .keyword k ∈ A → k.spelling ≠ word

/-- The first of some tokens is no name that spells a keyword. -/
def StartsFree (A : Expect) (ls : List Lexeme) : Prop :=
  ∀ l ∈ ls.head?, l.kind = .name → IsFree A l.chars

/-- Literal text. -/
def Part.isText : Part → Bool
  | .text _ => true
  | .placeholder _ => false

/-- A finite number that is read from its own text. -/
def Binary64.Readable (x : Binary64) : Prop :=
  x.isInfinite = false ∧ Binary64.ofChars x.magnitudeText = { x with negative := false }

/-- An option that can be written in a rendering: its value has no surrogates, and stands for
itself between marks. -/
def Verbatim (option : String × Text) : Prop :=
  option.1 ∈ Build.optionNames ∧ option.2.Plain ∧
    ∀ c ∈ option.2.chars, c ≠ '"' ∧ c ≠ '\\' ∧ c ≠ '\n'

/-- What a node must be for its text to say it, whatever is below it. No surrogate can be said: a
source text has none, and a rendering writes what it has as it is. -/
def Node.Writable (rules : Rules) : Node → Prop
  | .expr (.int _ value _) => value.natAbs ≤ maxInt
  | .expr (.float _ x) => x.Readable
  | .expr (.string _ parts) =>
    (∀ text : Text, .text text ∈ parts → text ≠ [] ∧ text.Plain ∧ Unopened text.chars) ∧
      parts.IsChain fun p q => p.isText = false ∨ q.isText = false
  | .expr (.struct _ members typeName) =>
    (∀ m ∈ members, IsKey rules m.1) ∧
      ∀ s ∈ typeName, IsIdentifier rules s ∧ IsFree Expect.expr s.toList ∧ s ≠ Build.objectWord
  | .expr (.ident _ name) => IsIdentifier rules name ∧ IsFree Expect.expr name.toList
  | .expr (.get _ e member) => e.isNumber = false ∧ IsWord member.toList ∧
      (member ∈ Build.pairMembers ∨ member ∉ rules.reserved)
  | .expr (.index _ e _) => e.isNumber = false
  | .expr (.unary _ op e) => op = .not ∨ e.isNumber = false
  | .expr (.apply _ function _) => IsWord function.toList ∧ IsFree Expect.expr function.toList
  | .placeholder p =>
    (∀ o ∈ p.options, Verbatim o) ∧
      (p.options.map Prod.fst).Nodup ∧
      (p.options ≠ [] → StartsFree Expect.afterQuoted (p.expr.lexemes space .placeholder))
  | _ => True

/-! ## Where an expression starts and ends

Behind the quoted value of an option, task words are looked for too, so there the first word of the
expression must spell none of them; `StartsFree` says so, and is asked for only there. It is one of
the conditions of `Node.Writable` on placeholders. -/

/-- What is looked for where the expressions of a rendering start. -/
def starts : List Expect :=
  [Expect.expr, Expect.exprOrParen, Expect.exprOrBracket, Expect.exprOrBrace, Expect.afterQuoted]

/-- Wherever an expression may start, what starts one is looked for. -/
theorem expr_subset (hA : A ∈ starts) : Expect.expr ⊆ A := by
  have each : ∀ A ∈ starts, Expect.expr ⊆ A := by decide
  exact each A hA

theorem expr_ne : Expect.expr ≠ Expect.afterQuoted := by decide

/-- Where an expression starts, layout is skipped. -/
theorem ordinary_starts (hA : A ∈ starts) : ordinary A = true := by
  have each : ∀ A ∈ starts, ordinary A = true := by decide
  exact each A hA

/-- Where an expression starts, the symbols that may be first are spelled like no others. -/
theorem unrivalled_starts (hA : A ∈ starts) {s : Symbol} (mem : .symbol s ∈ Expect.expr) :
    unrivalled A s = true := by
  have each : ∀ A ∈ starts, ∀ s ∈ Symbol.all, .symbol s ∈ Expect.expr → unrivalled A s = true := by
    decide
  exact each A hA s s.mem_all mem

/-- Besides behind a string, the keywords are those that an expression may start with. -/
theorem keyword_starts (hA : A ∈ starts) (other : A ≠ Expect.afterQuoted) {k : Keyword}
    (mem : .keyword k ∈ A) : .keyword k ∈ Expect.expr := by
  have each : ∀ A ∈ starts, A ≠ Expect.afterQuoted → ∀ k ∈ Keyword.all, .keyword k ∈ A →
      .keyword k ∈ Expect.expr := by decide
  exact each A hA other k k.mem_all mem

/-- Where an expression ends, layout is skipped. -/
theorem ordinary_ends (hA : A ∈ place.ends) : ordinary A = true := by
  have each : ∀ A ∈ endings, ordinary A = true := by decide
  exact each A (place.ends_subset hA)

/-- What may stand behind any expression. -/
def closers : List Char := [' ', ',', ':', ')', ']', '\x7d', '\n']

/-- What starts an access. -/
def accessors : List Char := ['.', '[']

/-- An expression that can be accessed without parentheses. -/
def Expr.isSubject (e : Expr) : Bool := !e.needsParens Expr.accessBinding false && !e.isNumber

/-- The text goes on behind an expression with what does not belong to its last token. -/
def Expr.Before (e : Expr) (rest : List Char) : Prop :=
  ∃ c ∈ rest.head?, c ∈ closers ∨ c ∈ accessors ∧ e.isSubject = true

/-- What may stand behind any expression may stand behind this one. -/
theorem Expr.Before.closed {e : Expr} {c : Char} {cs : List Char} (h : c ∈ closers) :
    e.Before (c :: cs) := ⟨c, rfl, .inl h⟩

/-- Behind what is no subject stands what may stand behind any expression. -/
theorem Expr.Before.any {e : Expr} (h : e.Before rest) (other : e.isSubject = false) (e' : Expr) :
    e'.Before rest := by
  obtain ⟨c, head, closes | ⟨-, subject⟩⟩ := h
  · exact ⟨c, head, .inl closes⟩
  · rw [other] at subject
    cases subject

/-- No word goes on behind an expression. -/
theorem Expr.Before.parted {e : Expr} (h : e.Before rest) : Parted rest := by
  have each : (closers ++ accessors).all (fun c => !isNameChar c) = true := by decide
  obtain ⟨c, head, either⟩ := h
  intro d hd
  rw [Option.mem_def.1 head] at hd
  cases hd
  have mem : c ∈ closers ++ accessors := by rcases either with h | h <;> simp [h]
  simpa using List.all_eq_true.1 each c mem

/-- No number goes on behind what is no subject. -/
theorem Expr.Before.ended {e : Expr} (h : e.Before rest) (other : e.isSubject = false) :
    Ended rest := by
  have each : closers.all (fun c => !isNameChar c && !isDecimalDigit c && c != '.') = true := by
    decide
  obtain ⟨c, head, closes | ⟨-, subject⟩⟩ := h
  · intro d hd
    rw [Option.mem_def.1 head] at hd
    cases hd
    simpa [and_assoc] using List.all_eq_true.1 each c closes
  · rw [other] at subject
    cases subject

/-! ## Nodes that are found -/

/-- The tokens of an expression are found, wherever an expression may start, if those behind it are
found wherever it may end. -/
def Expr.Found (fe : FrontEnd) (e : Expr) : Prop :=
  ∀ ⦃A gap place ls rest⦄, A ∈ starts → Spacing gap →
    (A = Expect.afterQuoted → StartsFree A (e.lexemes gap place)) →
    e.Before (spelled ls ++ rest) → (∀ B ∈ place.ends, Legible fe B ls rest) →
    Legible fe A (e.lexemes gap place ++ ls) rest

/-- Elsewhere than behind a string, it does not matter which word comes first. -/
theorem Expr.Found.inside {e : Expr} (found : e.Found fe) (hA : A ∈ starts)
    (other : A ≠ Expect.afterQuoted) (spacing : Spacing gap)
    (before : e.Before (spelled ls ++ rest))
    (after : ∀ B ∈ Place.plain.ends, Legible fe B ls rest) :
    Legible fe A (e.lexemes gap .plain ++ ls) rest :=
  found hA spacing (fun eq => absurd eq other) before after

/-- The tokens of a placeholder are found inside a string. -/
def Placeholder.Found (fe : FrontEnd) (p : Placeholder) : Prop :=
  ∀ ⦃A ls rest⦄, A = Expect.inString .double ∨ A = Expect.afterStringText .double →
    Legible fe (Expect.inString .double) ls rest → Legible fe A (p.lexemes ++ ls) rest

/-- The tokens of a node are found if it is part of an expression. -/
def Node.Found (fe : FrontEnd) : Node → Prop
  | .expr e => e.Found fe
  | .placeholder p => p.Found fe
  | _ => True

/-! ## Words and numbers

-/

/-- An expression that is a keyword. -/
theorem legible_keyword {k : Keyword} {after : Expect} (hA : A ∈ starts) (spacing : Spacing gap)
    (mem : .keyword k ∈ Expect.expr) (parted : Parted (spelled ls ++ rest))
    (legible : Legible fe after ls rest) :
    Legible fe A (.keyword gap k after :: ls) rest :=
  ⟨reads_keyword (ordinary_starts hA) (expr_subset hA (by decide)) spacing.layout
    (expr_subset hA mem)
    parted, legible⟩

/-- A name that an expression starts with. -/
theorem legible_name {s : String} {after : Expect} (hA : A ∈ starts) (spacing : Spacing gap)
    (word : IsWord s.toList) (free : IsFree A s.toList) (parted : Parted (spelled ls ++ rest))
    (legible : Legible fe after ls rest) : Legible fe A (.name gap s after :: ls) rest :=
  ⟨reads_name (ordinary_starts hA) (expr_subset hA (by decide)) spacing.layout word parted free,
    legible⟩

/-- A symbol that an expression starts with. -/
theorem legible_symbol {s : Symbol} {after : Expect} (hA : A ∈ starts) (spacing : Spacing gap)
    (mem : .symbol s ∈ Expect.expr) (legible : Legible fe after ls rest) :
    Legible fe A (.symbol gap s after :: ls) rest := by
  refine ⟨reads_symbol (ordinary_starts hA) spacing.layout (expr_subset hA mem)
    (clear_of_unrivalled (unrivalled_starts hA mem)) ?_ ?_, legible⟩
  · rintro rfl
    simp [Expect.expr, Expect.numbers] at mem
  · rintro rfl
    simp [Expect.expr, Expect.numbers] at mem

/-- The numeral of a number, with its sign. -/
theorem legible_number {e : Expr} {negative : Bool} {numeral : NumeralKind × List Char}
    (hA : A ∈ starts) (spacing : Spacing gap) (number : e.isSubject = false)
    (scan : ∀ {rest}, Ended rest →
      Numeral.scanSeparately (numeral.2 ++ rest) = some (numeral.1, numeral.2.length))
    (before : e.Before (spelled ls ++ rest)) (legible : Legible fe Expect.afterNumber ls rest) :
    Legible fe A (numberLexemes gap negative numeral ++ ls) rest := by
  have found := scan (before.ended number)
  cases negative with
  | false =>
    exact ⟨reads_number (ordinary_starts hA) spacing.layout (expr_subset hA (by decide)) found,
      legible⟩
  | true =>
    refine legible_symbol hA spacing (by decide) ⟨?_, legible⟩
    exact reads_number (by decide) (.nil false) (by decide) found

/-- A word that is no keyword spells none, whatever is looked for. -/
theorem isFree_of_spelling {w : List Char} (h : ∀ k ∈ Keyword.all, k.spelling ≠ w) (A : Expect) :
    IsFree A w := fun k _ => h k k.mem_all

/-- A word that is free where an expression starts is so behind a string too, if it has to be. -/
theorem isFree_start {w : List Char} (hA : A ∈ starts) (free : IsFree Expect.expr w)
    (behind : A = Expect.afterQuoted → IsFree A w) : IsFree A w := by
  by_cases eq : A = Expect.afterQuoted
  · exact behind eq
  · exact fun k looked => free k (keyword_starts hA eq looked)

/-- Truth values are found. -/
theorem Expr.found_boolean (r : Range) (value : Bool) : (Expr.boolean r value).Found fe := by
  intro A gap place ls rest hA spacing _ before after
  refine legible_keyword hA spacing (by cases value <;> decide) before.parted (after _ ?_)
  cases place <;> decide

/-- The word for nothing is found. -/
theorem Expr.found_null (r : Range) : (Expr.null r).Found fe := by
  intro A gap place ls rest hA spacing _ before after
  refine legible_keyword hA spacing (by decide) before.parted (after _ ?_)
  cases place <;> decide

/-- Integers are found, sign and numeral. -/
theorem Expr.found_int (r : Range) (value : Int) (radix : Radix) :
    (Expr.int r value radix).Found fe := by
  intro A gap place ls rest hA spacing _ before after
  refine legible_number hA spacing rfl (scanSeparately_numeralOf radix _) before (after _ ?_)
  cases place <;> decide

/-- Finite floating-point numbers are found, sign and numeral. -/
theorem Expr.found_float (r : Range) {x : Binary64} (finite : x.isInfinite = false) :
    (Expr.float r x).Found fe := by
  intro A gap place ls rest hA spacing _ before after
  refine legible_number hA spacing rfl ?_ before (after _ ?_)
  · exact fun ended =>
      Numeral.scanSeparately_float (Binary64.isFloat_magnitudeText finite) ended.cut
  · cases place <;> decide

/-- Names are found if they are words that spell no keyword. -/
theorem Expr.found_ident (r : Range) {name : String} (word : IsWord name.toList)
    (free : IsFree Expect.expr name.toList) : (Expr.ident r name).Found fe := by
  intro A gap place ls rest hA spacing first before after
  refine legible_name hA spacing word (isFree_start hA free fun eq => first eq _ rfl rfl)
    before.parted (after _ ?_)
  cases place <;> decide

/-! ## Parts of expressions -/

/-- A symbol behind an expression. -/
theorem legible_behind {s : Symbol} {after : Expect} (hA : A ∈ place.ends) (spacing : Spacing gap)
    (mem : .symbol s ∈ A) (clear : Clear A s (spelled ls ++ rest)) (other : s ≠ .tildeBrace)
    (point : s = .dot → ∀ d ∈ (spelled ls ++ rest).head?, isDecimalDigit d = false)
    (legible : Legible fe after ls rest) : Legible fe A (.symbol gap s after :: ls) rest :=
  ⟨reads_symbol (ordinary_ends hA) spacing.layout mem clear other point, legible⟩

/-- The symbols that close or separate expressions. -/
def enders : List Symbol := [.parenClose, .bracketClose, .comma, .colon]

/-- A symbol that closes an expression or separates it from the next. -/
theorem legible_ender {s : Symbol} {after : Expect} (hA : A ∈ Place.plain.ends)
    (mem : s ∈ .braceClose :: enders) (legible : Legible fe after ls rest) :
    Legible fe A (.symbol [] s after :: ls) rest := by
  have each : ∀ A ∈ Place.plain.ends, ∀ s ∈ .braceClose :: enders,
      .symbol s ∈ A ∧ unrivalled A s = true ∧ s ≠ .tildeBrace ∧ s ≠ .dot := by decide
  obtain ⟨looked, alone, other, point⟩ := each A hA s mem
  exact legible_behind hA (.inl rfl) looked (clear_of_unrivalled alone) other
    (fun eq => absurd eq point) legible

/-- A keyword between the parts of a choice. -/
theorem legible_between {k : Keyword} (hA : A ∈ Place.plain.ends) (mem : k ∈ [.kwThen, .kwElse])
    (parted : Parted (spelled ls ++ rest)) (legible : Legible fe Expect.expr ls rest) :
    Legible fe A (.keyword space k Expect.expr :: ls) rest := by
  have each : ∀ A ∈ Place.plain.ends, ∀ k ∈ [Keyword.kwThen, .kwElse],
      .keyword k ∈ A ∧ Terminal.name ∈ A := by decide
  obtain ⟨looked, name⟩ := each A hA k mem
  exact ⟨reads_keyword (ordinary_ends hA) name .space looked parted, legible⟩

/-- The text behind a space. -/
theorem head_spelled_space (e : Expr) (place : Place) (ls : List Lexeme) (rest : List Char) :
    (spelled (e.lexemes space place ++ ls) ++ rest).head? = some ' ' := by
  rw [spelled_append, e.spelled_lexemes]
  rfl

/-- A word ends in front of a space. -/
theorem parted_of_space (h : rest.head? = some ' ') : Parted rest := by
  intro c hc
  rw [h] at hc
  cases hc
  decide

/-! ## Operators and accesses

What is accessed may be a number in parentheses, but a rendering drops them. `Expr.FoundBefore`
therefore asks only that it is found in front of the character that the access starts with;
`Expr.Found.before` is the case without numbers. -/

/-- An expression with parentheses around it if need be. -/
theorem legible_enclosed {e : Expr} (found : e.Found fe) (parens : Bool) (hA : A ∈ starts)
    (spacing : Spacing gap)
    (free : A = Expect.afterQuoted → StartsFree A (enclosed parens e.lexemes gap place))
    (before : parens = false → e.Before (spelled ls ++ rest))
    (after : ∀ B ∈ place.ends, Legible fe B ls rest) :
    Legible fe A (enclosed parens e.lexemes gap place ++ ls) rest := by
  cases parens with
  | false => exact found hA spacing free (before rfl) after
  | true =>
    rw [enclosed, if_pos rfl, List.cons_append, List.append_assoc]
    refine legible_symbol hA spacing (by decide) ?_
    refine found.inside (by decide) (by decide) (.inl rfl) (.closed (by decide)) fun B hB => ?_
    exact legible_ender hB (by decide) (after _ place.afterOperand_mem)

/-- What starts the lexemes in front starts the whole. -/
theorem StartsFree.front {ms : List Lexeme} (h : StartsFree A (ms ++ ls)) : StartsFree A ms := by
  intro l head
  refine h l ?_
  rw [Option.mem_def] at head ⊢
  rw [List.head?_append, head]
  rfl

/-- What needs no parentheses to be accessed and is no number is a subject. -/
theorem Expr.isSubject_of_parens {e : Expr} (h : e.needsParens Expr.accessBinding false = false)
    (other : e.isNumber = false) : e.isSubject = true := by
  rw [Expr.isSubject, h, other]
  rfl

/-- A word does not start with a digit. -/
theorem isDecimalDigit_word {w : List Char} (word : IsWord w) :
    ∀ d ∈ (w ++ rest).head?, isDecimalDigit d = false := by
  obtain ⟨c, more, rfl, letter, -⟩ := isWord_iff.1 word
  intro d hd
  cases hd
  exact isDecimalDigit_of_letter letter

/-- A symbol that starts an access. -/
theorem legible_access {s : Symbol} {after : Expect} (hA : A ∈ place.ends)
    (mem : s ∈ [.dot, .bracketOpen])
    (point : s = .dot → ∀ d ∈ (spelled ls ++ rest).head?, isDecimalDigit d = false)
    (legible : Legible fe after ls rest) : Legible fe A (.symbol [] s after :: ls) rest := by
  have each : ∀ A ∈ endings, ∀ s ∈ [Symbol.dot, .bracketOpen],
      .symbol s ∈ A ∧ unrivalled A s = true ∧ s ≠ .tildeBrace := by decide
  obtain ⟨looked, alone, other⟩ := each A (place.ends_subset hA) s mem
  exact legible_behind hA (.inl rfl) looked (clear_of_unrivalled alone) other point legible

/-- The tokens of what is accessed are found in front of an access that starts with a character. -/
def Expr.FoundBefore (fe : FrontEnd) (c : Char) (e : Expr) : Prop :=
  ∀ ⦃A gap place ls rest⦄, A ∈ starts → Spacing gap →
    (A = Expect.afterQuoted → StartsFree A
      (enclosed (e.needsParens Expr.accessBinding false) e.lexemes gap place)) →
    (spelled ls ++ rest).head? = some c → (∀ B ∈ place.ends, Legible fe B ls rest) →
    Legible fe A (enclosed (e.needsParens Expr.accessBinding false) e.lexemes gap place ++ ls) rest

/-- What is no number is found in front of accesses. -/
theorem Expr.Found.before {e : Expr} (found : e.Found fe) (other : e.isNumber = false) {c : Char}
    (mem : c ∈ accessors) : e.FoundBefore fe c := by
  intro A gap place ls rest hA spacing free head after
  exact legible_enclosed found _ hA spacing free
    (fun parens => ⟨c, head, .inr ⟨mem, Expr.isSubject_of_parens parens other⟩⟩) after

/-- An access to a member is found. -/
theorem Expr.found_get (r : Range) {e : Expr} {member : String} (found : e.FoundBefore fe '.')
    (word : IsWord member.toList) : (Expr.get r e member).Found fe := by
  intro A gap place ls rest hA spacing free before after
  rw [Expr.lexemes] at free ⊢
  rw [List.append_assoc]
  refine found hA spacing (fun eq => (free eq).front) rfl fun B hB => ?_
  refine legible_access hB (by decide) (fun _ => ?_) ⟨?_, after _ place.afterOperand_mem⟩
  · have here := @isDecimalDigit_word (spelled ls ++ rest) _ word
    rwa [← List.append_assoc] at here
  · exact reads_name (by decide) (by decide) (.nil false) word before.parted
      (by simp [Expect.aName])

/-- An access by index is found. -/
theorem Expr.found_index (r : Range) {e i : Expr} (found : e.FoundBefore fe '[')
    (inner : i.Found fe) : (Expr.index r e i).Found fe := by
  intro A gap place ls rest hA spacing free before after
  rw [Expr.lexemes] at free ⊢
  rw [List.append_assoc, List.cons_append, List.append_assoc]
  refine found hA spacing (fun eq => (free eq).front) rfl fun B hB => ?_
  refine legible_access hB (by decide) (by simp) ?_
  refine inner.inside (by decide) (by decide) (.inl rfl) (.closed (by decide)) fun C hC => ?_
  exact legible_ender hC (by decide) (after _ place.afterOperand_mem)

/-- A prefix operator is found. -/
theorem Expr.found_unary (r : Range) (op : UnaryOp) {e : Expr} (found : e.Found fe) :
    (Expr.unary r op e).Found fe := by
  intro A gap place ls rest hA spacing _ before after
  refine legible_symbol hA spacing (by cases op <;> decide) ?_
  refine legible_enclosed found _ (by decide) (.inl rfl) (absurd · expr_ne)
    (fun _ => before.any rfl e) fun B hB => after B (place.plain_ends hB)

/-- A binary operator is found behind any expression, as a space follows. -/
theorem legible_operator (op : BinaryOp) (hA : A ∈ place.ends)
    (blank : (spelled ls ++ rest).head? = some ' ') (legible : Legible fe Expect.expr ls rest) :
    Legible fe A (.symbol space op.symbol Expect.expr :: ls) rest := by
  have looked : .symbol op.symbol ∈ A := by
    have each : ∀ A ∈ endings, .symbol op.symbol ∈ A := by cases op <;> decide
    exact each A (place.ends_subset hA)
  refine legible_behind hA (.inr rfl) looked (clear_of_head blank (by decide)) ?_ ?_ legible
  · cases op <;> decide
  · cases op <;> simp [BinaryOp.symbol]

/-- With a space in front, the text of an operand starts with it. -/
theorem head_spelled_enclosed (parens : Bool) (e : Expr) (ls : List Lexeme) (rest : List Char) :
    (spelled (enclosed parens e.lexemes space .plain ++ ls) ++ rest).head? = some ' ' := by
  rw [spelled_append, spelled_enclosed parens e.spelled_lexemes]
  rfl

/-- A binary operator is found. -/
theorem Expr.found_binary (r : Range) (op : BinaryOp) {left right : Expr} (hl : left.Found fe)
    (hr : right.Found fe) : (Expr.binary r op left right).Found fe := by
  intro A gap place ls rest hA spacing free before after
  have loose : (Expr.binary r op left right).isSubject = false := by
    cases op <;> rfl
  rw [Expr.lexemes] at free ⊢
  rw [List.append_assoc]
  refine legible_enclosed hl _ hA spacing (fun eq => (free eq).front)
    (fun _ => .closed (by decide)) fun B hB => ?_
  refine legible_operator op hB (head_spelled_enclosed _ right ls rest) ?_
  exact legible_enclosed hr _ (by decide) (.inr rfl) (absurd · expr_ne)
    (fun _ => before.any loose right) fun C hC => after C (place.plain_ends hC)

/-- A choice is found. -/
theorem Expr.found_ifThenElse (r : Range) {a b c : Expr} (ha : a.Found fe) (hb : b.Found fe)
    (hc : c.Found fe) : (Expr.ifThenElse r a b c).Found fe := by
  intro A gap place ls rest hA spacing _ before after
  rw [Expr.lexemes, List.cons_append, List.append_assoc, List.cons_append, List.append_assoc,
    List.cons_append]
  refine legible_keyword hA spacing (by decide) (parted_of_space (head_spelled_space ..)) ?_
  refine ha.inside (by decide) (by decide) (.inr rfl) (.closed (by decide)) fun B hB => ?_
  refine legible_between hB (by decide) (parted_of_space (head_spelled_space ..)) ?_
  refine hb.inside (by decide) (by decide) (.inr rfl) (.closed (by decide)) fun C hC => ?_
  refine legible_between hC (by decide) (parted_of_space (head_spelled_space ..)) ?_
  exact hc.inside (by decide) (by decide) (.inr rfl) (before.any rfl c)
    fun D hD => after D (place.plain_ends hD)

/-! ## Lists

Behind the opening bracket of a list, the closing one is looked for besides an expression. That
holds behind its commas as well, except for arguments; `delimiters` lists what is looked for. -/

/-- The tokens of an item are found if those behind it are found wherever an expression ends. -/
def ItemFound (fe : FrontEnd) (A : Expect) (item : List Lexeme) : Prop :=
  ∀ ⦃ls rest⦄, (∀ e : Expr, e.Before (spelled ls ++ rest)) →
    (∀ B ∈ Place.plain.ends, Legible fe B ls rest) → Legible fe A (item ++ ls) rest

/-- What is looked for behind the opening bracket of a list, with the bracket that closes it. -/
def delimiters : List (Expect × Symbol) :=
  [(Expect.exprOrParen, .parenClose), (Expect.exprOrBracket, .bracketClose),
   (Expect.exprOrBrace, .braceClose), (Expect.members, .braceClose)]

/-- Behind an item stands a comma, or what closes the list. -/
theorem legible_more {after : Expect} {items : List (List Lexeme)}
    (each : ∀ item ∈ items, ItemFound fe after item)
    (before : ∀ e : Expr, e.Before (spelled ls ++ rest))
    (closing : ∀ B ∈ Place.plain.ends, Legible fe B ls rest) :
    (∀ e : Expr, e.Before
        (spelled ((items.flatMap fun more => .symbol [] .comma after :: more) ++ ls) ++ rest)) ∧
      ∀ B ∈ Place.plain.ends,
        Legible fe B ((items.flatMap fun more => .symbol [] .comma after :: more) ++ ls) rest := by
  induction items with
  | nil => exact ⟨before, closing⟩
  | cons item items ih =>
    obtain ⟨here, others⟩ := List.forall_mem_cons.1 each
    obtain ⟨before, legible⟩ := ih others
    refine ⟨fun e => ⟨',', rfl, .inl (by decide)⟩, fun B hB => ?_⟩
    rw [List.flatMap_cons, List.append_assoc, List.cons_append]
    exact legible_ender hB (by decide) (here before legible)

/-- The items of a list, with the bracket that closes it. -/
theorem legible_separated {opened after : Expect} {close : Symbol} {items : List (List Lexeme)}
    (mem : (opened, close) ∈ delimiters) (first : ∀ item ∈ items, ItemFound fe opened item)
    (more : ∀ item ∈ items, ItemFound fe after item)
    (legible : Legible fe Expect.afterOperand ls rest) :
    Legible fe opened
      (separated after items ++ .symbol [] close Expect.afterOperand :: ls) rest := by
  have each : ∀ x ∈ delimiters, ordinary x.1 = true ∧ .symbol x.2 ∈ x.1 ∧
      unrivalled x.1 x.2 = true ∧ x.2 ∈ .braceClose :: enders ∧
      x.2 ≠ .tildeBrace ∧ x.2 ≠ .dot ∧ x.2.spelling.head?.any closers.contains = true := by decide
  obtain ⟨quiet, looked, alone, ender, other, point, closing⟩ := each _ mem
  obtain ⟨c, head, closes⟩ := (Option.any_eq_true _ _).1 closing
  have before : ∀ e : Expr,
      e.Before (spelled (.symbol [] close Expect.afterOperand :: ls) ++ rest) := by
    intro e
    refine ⟨c, ?_, .inl (List.contains_iff_mem.1 closes)⟩
    rw [spelled_cons]
    show c ∈ (close.spelling ++ spelled ls ++ rest).head?
    rw [List.append_assoc, List.head?_append_of_ne_nil _ (spelling_ne_nil close)]
    exact head
  cases items with
  | nil =>
    -- an empty list: the bracket that closes it is looked for at once
    exact ⟨reads_symbol quiet (.nil false) looked (clear_of_unrivalled alone) other
      (fun eq => absurd eq point), legible⟩
  | cons item items =>
    obtain ⟨before, legible⟩ := legible_more (List.forall_mem_cons.1 more).2 before
      fun B hB => legible_ender hB ender legible
    rw [separated, List.append_assoc]
    exact first item (by simp) before legible

/-- Expressions are items. -/
theorem itemFound_exprs {es : List Expr} (hA : A ∈ starts) (other : A ≠ Expect.afterQuoted)
    (spacing : Spacing gap) (each : ∀ e ∈ es, e.Found fe) :
    ∀ item ∈ exprLexemes es gap, ItemFound fe A item := by
  induction es generalizing gap with
  | nil => simp [exprLexemes]
  | cons e es ih =>
    obtain ⟨here, others⟩ := List.forall_mem_cons.1 each
    rw [exprLexemes, List.forall_mem_cons]
    exact ⟨fun _ _ before after => here.inside hA other spacing (before e) after,
      ih (.inr rfl) others⟩

/-- Keys and values are items of maps. -/
theorem itemFound_pairs {items : List (Expr × Expr)} (spacing : Spacing gap)
    (each : ∀ i ∈ items, i.1.Found fe ∧ i.2.Found fe) :
    ∀ item ∈ pairLexemes items gap, ItemFound fe Expect.exprOrBrace item := by
  induction items generalizing gap with
  | nil => simp [pairLexemes]
  | cons i items ih =>
    obtain ⟨⟨key, value⟩, others⟩ := List.forall_mem_cons.1 each
    rw [pairLexemes, List.forall_mem_cons]
    refine ⟨fun _ _ before after => ?_, ih (.inr rfl) others⟩
    rw [List.append_assoc]
    refine key.inside (by decide) (by decide) spacing (.closed (by decide)) fun B hB => ?_
    exact legible_ender hB (by decide)
      (value.inside (by decide) (by decide) (.inr rfl) (before _) after)

/-- Keys and values are members of structs. -/
theorem itemFound_members {members : List (Text × Expr)} (spacing : Spacing gap)
    (each : ∀ m ∈ members, IsWord m.1.shown.toList ∧ m.2.Found fe) :
    ∀ item ∈ memberLexemes members gap, ItemFound fe Expect.members item := by
  induction members generalizing gap with
  | nil => simp [memberLexemes]
  | cons m members ih =>
    obtain ⟨⟨key, value⟩, others⟩ := List.forall_mem_cons.1 each
    rw [memberLexemes, List.forall_mem_cons]
    refine ⟨fun _ _ before after => ⟨?_, ?_, ?_⟩, ih (.inr rfl) others⟩
    · refine reads_name (by decide) (by decide) spacing.layout key ?_ ?_
      · intro c hc
        cases hc
        decide
      · intro k looked
        simp [Expect.members, Expect.entries, Expect.quoteds] at looked
    · exact reads_symbol (A := Expect.aColon) (by decide) (.nil false) (by decide)
        (clear_of_unrivalled (by decide)) (by decide) (by simp)
    · exact value.inside (by decide) (by decide) (.inr rfl) (before _) after

/-- An array is found if its items are. -/
theorem Expr.found_array (r : Range) {items : List Expr} (each : ∀ e ∈ items, e.Found fe) :
    (Expr.array r items).Found fe := by
  intro A gap place ls rest hA spacing _ before after
  rw [Expr.lexemes, List.cons_append, List.append_assoc]
  have found := @itemFound_exprs fe Expect.exprOrBracket [] items (by decide) (by decide)
    (.inl rfl) each
  exact legible_symbol hA spacing (by decide)
    (legible_separated (by decide) found found (after _ place.afterOperand_mem))

/-- A map is found if its keys and values are. -/
theorem Expr.found_map (r : Range) {items : List (Expr × Expr)}
    (each : ∀ i ∈ items, i.1.Found fe ∧ i.2.Found fe) : (Expr.map r items).Found fe := by
  intro A gap place ls rest hA spacing _ before after
  rw [Expr.lexemes, List.cons_append, List.append_assoc]
  have found := @itemFound_pairs fe [] items (.inl rfl) each
  exact legible_symbol hA spacing (by decide)
    (legible_separated (by decide) found found (after _ place.afterOperand_mem))

/-- A pair is found if its parts are. -/
theorem Expr.found_pair (r : Range) {left right : Expr} (hl : left.Found fe)
    (hr : right.Found fe) : (Expr.pair r left right).Found fe := by
  intro A gap place ls rest hA spacing _ before after
  rw [Expr.lexemes, List.cons_append, List.append_assoc, List.cons_append, List.append_assoc]
  refine legible_symbol hA spacing (by decide) ?_
  refine hl.inside (by decide) (by decide) (.inl rfl) (.closed (by decide)) fun B hB => ?_
  refine legible_ender hB (by decide) ?_
  refine hr.inside (by decide) (by decide) (.inr rfl) (.closed (by decide)) fun C hC => ?_
  exact legible_ender hC (by decide) (after _ place.afterOperand_mem)

/-- What is found behind a name that an expression starts with. -/
theorem legible_opening {s : Symbol} {after : Expect} (spacing : Spacing gap)
    (mem : s ∈ [.parenOpen, .braceOpen]) (legible : Legible fe after ls rest) :
    Legible fe place.afterName (.symbol gap s after :: ls) rest := by
  have each : ∀ s ∈ [Symbol.parenOpen, .braceOpen], .symbol s ∈ place.afterName ∧
      unrivalled place.afterName s = true ∧ s ≠ .tildeBrace ∧ s ≠ .dot := by
    cases place <;> decide
  obtain ⟨looked, alone, other, point⟩ := each s mem
  exact legible_behind place.afterName_mem spacing looked (clear_of_unrivalled alone) other
    (fun eq => absurd eq point) legible

/-- A word ends in front of what names do not go on with. -/
theorem parted_cons {c : Char} {cs : List Char} (h : isNameChar c = false) : Parted (c :: cs) := by
  intro d hd
  cases hd
  exact h

/-- A call is found if its arguments are. -/
theorem Expr.found_apply (r : Range) {function : String} {arguments : List Expr}
    (word : IsWord function.toList) (free : IsFree Expect.expr function.toList)
    (each : ∀ e ∈ arguments, e.Found fe) : (Expr.apply r function arguments).Found fe := by
  intro A gap place ls rest hA spacing first before after
  have spare := isFree_start hA free fun eq => first eq _ rfl rfl
  rw [Expr.lexemes, List.cons_append, List.cons_append, List.append_assoc]
  refine legible_name hA spacing word spare (parted_cons rfl) ?_
  refine legible_opening (.inl rfl) (by decide) ?_
  exact legible_separated (by decide)
    (itemFound_exprs (by decide) (by decide) (.inl rfl) each)
    (itemFound_exprs (by decide) (by decide) (.inl rfl) each) (after _ place.afterOperand_mem)

/-- The word that starts a struct without a type is one. -/
theorem isWord_object : IsWord Build.objectWord.toList := by
  unfold IsWord
  decide

/-- A struct is found if its members are. -/
theorem Expr.found_struct (r : Range) {members : List (Text × Expr)}
    {typeName : Option String}
    (named : ∀ s ∈ typeName, IsWord s.toList ∧ IsFree Expect.expr s.toList)
    (each : ∀ m ∈ members, IsWord m.1.shown.toList ∧ m.2.Found fe) :
    (Expr.struct r members typeName).Found fe := by
  intro A gap place ls rest hA spacing first before after
  have word : IsWord (typeName.getD Build.objectWord).toList ∧
      IsFree A (typeName.getD Build.objectWord).toList := by
    cases typeName with
    | none => exact ⟨isWord_object, isFree_of_spelling (by decide) A⟩
    | some s =>
      exact ⟨(named s rfl).1, isFree_start hA (named s rfl).2 fun eq => first eq _ rfl rfl⟩
  rw [Expr.lexemes, List.cons_append, List.cons_append, List.append_assoc]
  refine legible_name hA spacing word.1 word.2 (parted_cons rfl) ?_
  refine legible_opening (.inr rfl) (by decide) ?_
  have found := @itemFound_members fe [] members (.inl rfl) each
  exact legible_separated (by decide) found found (after _ place.afterOperand_mem)

/-! ## Strings and placeholders -/

/-- The tokens of the options of a placeholder, and what is behind them. -/
theorem legible_options {options : PlaceholderOptions}
    (hA : A = Expect.expr ∨ A = Expect.afterQuoted) (spacing : Spacing gap)
    (plain : ∀ o ∈ options, Verbatim o)
    (behind : ∀ B, B = (if options = [] then A else Expect.afterQuoted) → Legible fe B ls rest) :
    Legible fe A (optionLexemes options gap ++ ls) rest := by
  induction options generalizing A gap with
  | nil => exact behind A rfl
  | cons o options ih =>
    obtain ⟨⟨known, -, text⟩, others⟩ := List.forall_mem_cons.1 plain
    obtain ⟨name, value⟩ := o
    have starts : A ∈ starts := by
      rcases hA with rfl | rfl <;> decide
    have rest_ := ih (.inr rfl) (.inr rfl) others fun B hB => behind B (by simpa using hB)
    have reads := @reads_quoted fe (spelled (optionLexemes options space ++ ls) ++ rest) _ text
    -- behind the name of an option, a mark follows the equal sign
    have value_ : ∀ B, .symbol .equal ∈ B → ordinary B = true → Legible fe B
        (.symbol [] .equal Expect.optionValue :: .quoted value ::
          (optionLexemes options space ++ ls)) rest := by
      intro B looked quiet
      exact ⟨reads_symbol quiet (.nil false) looked (clear_of_head (c := '"') rfl (by decide))
        (by decide) (by simp), reads, rest_⟩
    have parted : Parted (spelled (.symbol [] .equal Expect.optionValue :: .quoted value ::
        (optionLexemes options space ++ ls)) ++ rest) := parted_cons rfl
    simp only [Build.optionNames, List.mem_cons, List.not_mem_nil, or_false] at known
    -- two of the names are keywords, and the other two spell none
    rcases known with rfl | rfl | rfl | rfl
    · exact legible_name starts spacing (by unfold IsWord; decide)
        (isFree_of_spelling (by decide) _) parted (value_ _ (by decide) (by decide))
    · exact legible_keyword starts spacing (by decide) parted (value_ _ (by decide) (by decide))
    · exact legible_keyword starts spacing (by decide) parted (value_ _ (by decide) (by decide))
    · exact legible_name starts spacing (by unfold IsWord; decide)
        (isFree_of_spelling (by decide) _) parted (value_ _ (by decide) (by decide))

theorem Placeholder.found {p : Placeholder} (here : (Node.placeholder p).Writable rules)
    (inner : p.expr.Found fe) : p.Found fe := by
  obtain ⟨r, options, e⟩ := p
  obtain ⟨plain, -, free⟩ := here
  intro A ls rest hA legible
  rw [Placeholder.lexemes, List.cons_append, List.append_assoc, List.append_assoc]
  refine ⟨reads_opening hA, legible_options (.inl rfl) (.inl rfl) plain fun B hB => ?_⟩
  have mem : B ∈ starts := by
    rw [hB]
    split <;> decide
  refine inner mem ?_ (fun eq => ?_) (.closed (by decide)) fun C hC => ?_
  -- there is a space in front of the expression just if there are options
  · split
    · exact .inl rfl
    · exact .inr rfl
  -- only behind the value of an option must the first word be free
  · rw [eq] at hB ⊢
    split at hB
    · exact absurd hB.symm expr_ne
    · rename_i some_
      rw [if_neg some_]
      exact free some_
  · have each : ∀ C ∈ endings, .symbol .braceClose ∈ C ∧ unrivalled C .braceClose = true := by
      decide
    obtain ⟨looked, alone⟩ := each C hC
    exact legible_behind hC (.inl rfl) looked (clear_of_unrivalled alone) (by decide) (by simp)
      legible

/-- The tokens of the parts of a string, and its closing mark. -/
theorem legible_parts {parts : List Part}
    (plain : ∀ text : Text, .text text ∈ parts → text ≠ [] ∧ text.Plain ∧ Unopened text.chars)
    (apart : parts.IsChain fun p q => p.isText = false ∨ q.isText = false)
    (each : ∀ p, .placeholder p ∈ parts → p.Found fe)
    (legible : Legible fe Expect.afterOperand ls rest)
    (hA : A = Expect.inString .double ∨ A = Expect.afterStringText .double)
    (first : ∀ p ∈ parts.head?, A = Expect.inString .double ∨ p.isText = false) :
    Legible fe A (partLexemes parts ++ .mark [] Expect.afterOperand :: ls) rest := by
  induction parts generalizing A with
  | nil => exact ⟨reads_closing hA, legible⟩
  | cons p parts ih =>
    have others := fun B => @ih B (fun text hp => plain text (by simp [hp]))
      (List.isChain_cons.1 apart).2 (fun p hp => each p (by simp [hp]))
    cases p with
    | placeholder p =>
      rw [partLexemes, List.append_assoc]
      exact each p (by simp) hA (others _ (.inl rfl) fun _ _ => .inl rfl)
    | text text =>
      have inString : A = Expect.inString .double := by simpa [Part.isText] using first
      obtain ⟨some_, -, unopened⟩ := plain text (by simp)
      -- no text follows, so this one ends where the scanner stops: at a placeholder or the mark
      have next : ∀ p ∈ parts.head?, p.isText = false := by
        intro p hp
        have apart := (List.isChain_cons.1 apart).1 p hp
        simpa [Part.isText] using apart
      have stops : Stops (spelled (partLexemes parts ++ .mark [] Expect.afterOperand :: ls) ++
          rest) := by
        cases parts with
        | nil => exact ⟨_, .inl rfl⟩
        | cons q parts =>
          cases q with
          | text _ => cases next _ rfl
          | placeholder q => cases q; exact ⟨_, .inr rfl⟩
      subst inString
      refine ⟨reads_literal some_ unopened stops, ?_⟩
      exact others _ (.inr rfl) fun p hp => .inr (next p hp)

theorem Expr.found_string (r : Range) {parts : List Part}
    (here : (Node.expr (.string r parts)).Writable rules)
    (each : ∀ p, .placeholder p ∈ parts → p.Found fe) : (Expr.string r parts).Found fe := by
  intro A gap place ls rest hA spacing _ before after
  obtain ⟨plain, apart⟩ := here
  have looked : .mark .double ∈ A ∧ A.contains (.quoted .double) = false := by
    have each : ∀ A ∈ starts, .mark .double ∈ A ∧ A.contains (.quoted .double) = false := by decide
    exact each A hA
  rw [Expr.lexemes, List.cons_append, List.append_assoc]
  refine ⟨reads_mark (ordinary_starts hA) spacing.layout looked.1 looked.2, ?_⟩
  exact legible_parts plain apart each (after _ place.afterOperand_mem) (.inl rfl)
    fun _ _ => .inl rfl

/-! ## Whole renderings -/

theorem mem_partNodes {n : Node} {parts : List Part} :
    n ∈ partNodes parts ↔ ∃ p, .placeholder p ∈ parts ∧ n = .placeholder p := by
  constructor
  · intro h
    obtain ⟨p, hp, rfl⟩ := List.mem_map.1 h
    obtain ⟨part, mem, eq⟩ := List.mem_filterMap.1 hp
    cases part with
    | text text => cases eq
    | placeholder p' =>
      cases eq
      exact ⟨p, mem, rfl⟩
  · rintro ⟨p, mem, rfl⟩
    exact List.mem_map.2 ⟨p, List.mem_filterMap.2 ⟨_, mem, rfl⟩, rfl⟩

/-- The tokens of every writable part of an expression are found. -/
theorem Node.Everywhere.found {n : Node}
    (h : n.Everywhere (Node.Writable rules)) : n.Found fe := by
  induction h with
  | @intro n here _ ih =>
    cases n with
    | placeholder p => exact Placeholder.found here (ih (.expr p.expr) (by simp [Node.children]))
    | expr e =>
      have child : ∀ e', Node.expr e' ∈ e.children → e'.Found fe := fun e' mem => ih (.expr e') mem
      cases e with
      | boolean r value => exact Expr.found_boolean r value
      | int r value radix => exact Expr.found_int r value radix
      | float r x => exact Expr.found_float r here.1
      | null r => exact Expr.found_null r
      | string r parts =>
        exact Expr.found_string r here fun p hp =>
          ih (.placeholder p) (mem_partNodes.2 ⟨p, hp, rfl⟩)
      | array r items =>
        exact Expr.found_array r fun e he => child e (List.mem_map_of_mem he)
      | pair r left right =>
        exact Expr.found_pair r (child _ (by simp [Expr.children]))
          (child _ (by simp [Expr.children]))
      | map r items =>
        refine Expr.found_map r fun i hi => ⟨child _ ?_, child _ ?_⟩
        · exact List.mem_flatMap.2 ⟨i, hi, by simp⟩
        · exact List.mem_flatMap.2 ⟨i, hi, by simp⟩
      | struct r members typeName =>
        refine Expr.found_struct r (fun s hs => ⟨(here.2 s hs).1.1, (here.2 s hs).2.1⟩)
          fun m hm => ?_
        exact ⟨(here.1 m hm).2.1, child _ (List.mem_map_of_mem (f := fun m => Node.expr m.2) hm)⟩
      | ifThenElse r a b c =>
        exact Expr.found_ifThenElse r (child _ (by simp [Expr.children]))
          (child _ (by simp [Expr.children])) (child _ (by simp [Expr.children]))
      | ident r name => exact Expr.found_ident r here.1.1 here.2
      | get r e member =>
        have found := child e (by simp [Expr.children])
        exact Expr.found_get r (found.before here.1 (by decide)) here.2.1
      | index r e i =>
        have found := child e (by simp [Expr.children])
        exact Expr.found_index r (found.before here (by decide)) (child _ (by simp [Expr.children]))
      | unary r op e => exact Expr.found_unary r op (child _ (by simp [Expr.children]))
      | binary r op left right =>
        exact Expr.found_binary r op (child _ (by simp [Expr.children]))
          (child _ (by simp [Expr.children]))
      | apply r function arguments =>
        exact Expr.found_apply r here.1 here.2 fun e he => child e (List.mem_map_of_mem he)
    | _ => trivial

/-- The text of an expression whose tokens are found is legible as those. -/
theorem Expr.Found.legible {e : Expr} (found : e.Found fe) :
    Legible fe Expect.expr (e.lexemes [] .plain) ['\n'] := by
  have legible := @Expr.Found.inside fe Expect.expr [] ['\n'] [] e found (by decide) (by decide)
    (.inl rfl) (.closed (by decide)) fun _ _ => trivial
  rwa [List.append_nil] at legible

end Wdl
