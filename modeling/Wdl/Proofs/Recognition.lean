import Mathlib.Data.List.TakeWhile
import Wdl.Proofs.Excerpts
import Wdl.Proofs.Literals
import Wdl.Proofs.Notations

/-!
# Wdl.Proofs.Recognition -- where a token is written, it is found

What is looked for decides what is found. Here a text that starts with a word, a symbol, a number or
a mark is given, and what the scanner finds in it is computed: `FrontEnd.Reads A gap kind chars
rest` says that with `A` looked for, `chars` is found as a `kind` behind the `gap` and in front of
the `rest`.

* `reads_word` and `reads_name` are about words, `reads_keyword` and `reads_keyword_unnamed` about
  keywords. A word ends where the text behind it is `Parted`.
* `reads_symbol` is about symbols. A symbol is found if no longer one that is looked for is spelled
  there; this is `Clear`, and `unrivalled` decides a condition that is enough for it.
* `reads_number`, `reads_mark` and `reads_quoted` are about the rest, and `reads_closing`,
  `reads_opening` and `reads_literal` about the inside of strings.

Each comes down to `plain?`, which tries the classes of tokens in a fixed order; so for each class
that comes earlier it has to be shown that nothing of it stands there.
-/

namespace Wdl

open Scan
open Wdl.Parser (calm isLiteral)

variable {fe : FrontEnd} {A : Expect} {gap rest : List Char}

/-! ## Outside strings -/

/-- Neither literal text nor a version identifier is looked for. -/
def ordinary (A : Expect) : Bool := calm A && !A.contains .versionWord

/-- A character that is no layout. -/
def isSolid (c : Char) : Bool := !(c = '\r' || c = '\n' || c = '#' || c = ' ' || c = '\t')

theorem layoutLength_solid {c : Char} (solid : isSolid c = true) (cs : List Char) :
    layoutLength false (c :: cs) = 0 := by
  simp only [isSolid, Bool.not_eq_true', Bool.or_eq_false_iff, decide_eq_false_iff_not] at solid
  rw [layoutLength]
  · simp [solid]
  · rintro more eq
    exact absurd eq (by simp [solid])

/-- Nothing, or one space. -/
def Spacing (gap : List Char) : Prop := gap = [] ∨ gap = space

theorem Scan.Gap.space : Gap false space false := .blank (.inl rfl) (.nil false)

theorem Spacing.layout (h : Spacing gap) : Gap false gap false := by
  rcases h with rfl | rfl
  · exact .nil false
  · exact .space

/-- A token that is found at once is found behind layout. -/
theorem reads_of_plain {kind : Terminal} {c : Char} {cs : List Char} (quiet : ordinary A = true)
    (layout : Gap false gap false) (solid : isSolid c = true)
    (found : plain? fe A (c :: cs ++ rest) = some (kind, (c :: cs).length)) :
    fe.Reads A gap kind (c :: cs) rest := by
  have calm : calm A = true := (Bool.and_eq_true_iff.1 quiet).1
  exact .inr ⟨calm_literal? calm _, layout.layoutLength_eq (layoutLength_solid solid _), found⟩

theorem class?_of_none {t : Terminal} {f : List Char → Option Nat} {cs : List Char}
    (h : f cs = none) : class? A t f cs = none := by
  rw [class?, h]
  simp

theorem class?_unlooked {t : Terminal} (h : A.contains t = false) (f : List Char → Option Nat)
    (cs : List Char) : class? A t f cs = none := if_neg (by rw [h]; decide)

theorem class?_version (quiet : ordinary A = true) (f : List Char → Option Nat) (cs : List Char) :
    class? A .versionWord f cs = none := by
  have missing := (Bool.and_eq_true_iff.1 quiet).2
  exact class?_unlooked (by simpa using missing) f cs

theorem openingLength?_of_other {c : Char} (sigil : isSigil c = false) (cs : List Char) :
    openingLength? (c :: cs) = none := by
  cases cs with
  | nil => rfl
  | cons d cs => simp [openingLength?, sigil]

theorem quotedLength?_of_other {q : Quote} {c : Char} (mark : c ≠ q.char) (cs : List Char) :
    quotedLength? q (c :: cs) = none := by
  simp [quotedLength?, mark]

/-! ## Words -/

/-- A letter, and then letters, digits and underscores. -/
def IsWord (cs : List Char) : Prop := nameLength? cs = some cs.length

instance decidableIsWord (cs : List Char) : Decidable (IsWord cs) :=
  inferInstanceAs (Decidable (_ = _))

/-- A word does not go on. -/
def Parted (rest : List Char) : Prop := ∀ c ∈ rest.head?, isNameChar c = false

theorem isWord_iff {cs : List Char} : IsWord cs ↔
    ∃ c more, cs = c :: more ∧ isLetter c = true ∧ ∀ d ∈ more, isNameChar d = true := by
  cases cs with
  | nil => simp [IsWord, nameLength?]
  | cons c more =>
    simp only [IsWord, nameLength?, Numeral.runLength]
    constructor
    · intro h
      split at h
      · rename_i letter
        refine ⟨c, more, rfl, letter, ?_⟩
        have whole : more.takeWhile isNameChar = more :=
          (List.takeWhile_prefix _).eq_of_length (by simpa using h)
        exact List.takeWhile_eq_self_iff.1 whole
      · cases h
    · rintro ⟨c', more', eq, letter, all⟩
      cases eq
      have whole : more.takeWhile isNameChar = more := List.takeWhile_eq_self_iff.2 all
      rw [if_pos letter, whole]
      rfl

theorem nameLength?_word {w : List Char} (word : IsWord w) (parted : Parted rest) :
    nameLength? (w ++ rest) = some w.length := by
  obtain ⟨c, more, rfl, letter, all⟩ := isWord_iff.1 word
  rw [List.cons_append, nameLength?, if_pos letter, Numeral.runLength_ended all parted]
  rfl

/-- What is found as a name is a word. -/
theorem isWord_of_nameLength? {w : List Char} (ne : w ≠ [])
    (h : nameLength? (w ++ rest) = some w.length) : IsWord w := by
  obtain ⟨c, more, rfl⟩ := List.exists_cons_of_ne_nil ne
  show nameLength? (c :: more) = some (more.length + 1)
  rw [List.cons_append, nameLength?] at h
  split at h
  · rename_i letter
    have run : Numeral.runLength isNameChar (more ++ rest) = more.length := by simpa using h
    -- the run ends with the word, so what is behind has no part in it
    have alone := runLength_append_of_le (Nat.le_of_eq run)
    rw [nameLength?, if_pos letter, ← alone, run]
  · cases h

/-- A letter is neither space nor the start of a comment. -/
theorem isSolid_of_letter {c : Char} (letter : isLetter c = true) : isSolid c = true := by
  rw [isSolid]
  simp only [Bool.not_eq_true', Bool.or_eq_false_iff, decide_eq_false_iff_not]
  refine ⟨⟨⟨⟨?_, ?_⟩, ?_⟩, ?_⟩, ?_⟩ <;>
  · rintro rfl
    cases letter

/-- What is found among the words is found among all tokens. -/
theorem reads_of_word? {kind : Terminal} {w : List Char} (quiet : ordinary A = true)
    (layout : Gap false gap false) (word : IsWord w)
    (found : word? A (w ++ rest) = some (kind, w.length)) : fe.Reads A gap kind w rest := by
  obtain ⟨c, more, rfl, letter, all⟩ := isWord_iff.1 word
  refine reads_of_plain quiet layout (isSolid_of_letter letter) ?_
  -- a letter starts neither a number nor a placeholder nor a quoted text, which are tried before
  -- words
  have number : number? fe A (c :: more ++ rest) = none := by
    refine number?_of_other (isDecimalDigit_of_letter letter) ?_
    rintro rfl
    cases letter
  have opening : class? A .opening openingLength? (c :: more ++ rest) = none := by
    have sigil : ¬ isSigil c = true := by
      intro sigil
      simp only [isSigil, Bool.or_eq_true, decide_eq_true_eq] at sigil
      rcases sigil with rfl | rfl <;> cases letter
    exact class?_of_none (openingLength?_of_other (by simpa using sigil) _)
  have quoted : class? A (.quoted .single) (quotedLength? .single) (c :: more ++ rest) = none := by
    refine class?_of_none (quotedLength?_of_other ?_ _)
    rintro rfl
    cases letter
  simp only [plain?, number, opening, quoted, found]
  rfl

/-- A word is found as a keyword that is looked for, or else as a name. -/
theorem reads_word {w : List Char} (quiet : ordinary A = true) (name : .name ∈ A)
    (layout : Gap false gap false) (word : IsWord w) (parted : Parted rest) :
    fe.Reads A gap (((keywordOf? A w).map Terminal.keyword).getD .name) w rest := by
  refine reads_of_word? quiet layout word ?_
  rw [word?_eq name, nameLength?_word word parted, Option.map_some, List.take_left]

/-- A word is found as a name if it spells no keyword that is looked for. -/
theorem reads_name {w : List Char} (quiet : ordinary A = true) (name : .name ∈ A)
    (layout : Gap false gap false) (word : IsWord w) (parted : Parted rest)
    (free : ∀ k, .keyword k ∈ A → k.spelling ≠ w) : fe.Reads A gap .name w rest := by
  have found := @reads_word fe A gap rest w quiet name layout word parted
  rwa [keywordOf?_eq_none.2 free] at found

/-- Keywords are words. -/
theorem isWord_spelling (k : Keyword) : IsWord k.spelling := by
  have each : ∀ k ∈ Keyword.all, nameLength? k.spelling = some k.spelling.length := by decide
  exact each k k.mem_all

/-- Keywords start with a letter. -/
theorem isLetter_keyword (k : Keyword) : ∃ c more, k.spelling = c :: more ∧ isLetter c = true := by
  obtain ⟨c, more, eq, letter, -⟩ := isWord_iff.1 (isWord_spelling k)
  exact ⟨c, more, eq, letter⟩

/-- A keyword that is looked for is found. -/
theorem reads_keyword {k : Keyword} (quiet : ordinary A = true) (name : .name ∈ A)
    (layout : Gap false gap false) (mem : .keyword k ∈ A) (parted : Parted rest) :
    fe.Reads A gap (.keyword k) k.spelling rest := by
  have found := @reads_word fe A gap rest _ quiet name layout (isWord_spelling k) parted
  rwa [keywordOf?_eq_some.2 ⟨mem, rfl⟩] at found

/-- Where no names are looked for, a keyword is found whatever is behind it, if no other one that is
looked for starts alike. -/
theorem reads_keyword_unnamed {k : Keyword} (quiet : ordinary A = true) (unnamed : .name ∉ A)
    (layout : Gap false gap false) (mem : .keyword k ∈ A)
    (alone : ∀ t, .keyword t ∈ A → t.spelling.head? = k.spelling.head? → t = k) :
    fe.Reads A gap (.keyword k) k.spelling rest := by
  refine reads_of_word? quiet layout (isWord_spelling k) ?_
  obtain ⟨before, behind, all⟩ := List.append_of_mem k.mem_all
  have size : spellingLength? k.spelling (k.spelling ++ rest) = some k.spelling.length :=
    spellingLength?_eq_some.2 ⟨rfl, rest, rfl⟩
  rw [word?, if_neg (by simpa using unnamed)]
  refine List.findSome?_eq_some_iff.2 ⟨before, k, behind, all, ?_, fun t ht => ?_⟩
  · rw [if_pos (contains_of_mem mem), size]
    rfl
  -- a keyword that is tried earlier and found as well would start alike, and so be the same one
  · split
    · rename_i looked
      rw [Option.map_eq_none_iff, Option.eq_none_iff_forall_ne_some]
      intro n found
      obtain ⟨-, more, eq⟩ := spellingLength?_eq_some.1 found
      have heads : t.spelling.head? = k.spelling.head? := by
        obtain ⟨c, cs, spelled, -⟩ := isLetter_keyword t
        obtain ⟨d, ds, spelled', -⟩ := isLetter_keyword k
        rw [spelled, spelled'] at eq
        rw [spelled, spelled']
        exact congrArg some (List.cons_eq_cons.1 eq).1.symm
      have nodup : Keyword.all.Nodup := by decide
      rw [alone t (List.contains_iff_mem.1 looked) heads] at ht
      rw [all, List.nodup_append] at nodup
      exact nodup.2.2 k ht k (by simp) rfl
    · rfl

/-! ## Symbols -/

/-- No longer symbol that is looked for is spelled where a symbol stands. -/
def Clear (A : Expect) (s : Symbol) (rest : List Char) : Prop :=
  ∀ t u, .symbol t ∈ A → t.spelling = s.spelling ++ u → u ≠ [] → u.head? ≠ rest.head?

/-- Symbols are told apart by what they spell. -/
theorem spelling_injective {s t : Symbol} (h : s.spelling = t.spelling) : s = t :=
  List.inj_on_of_nodup_map (f := Symbol.spelling) (by decide) s.mem_all t.mem_all h

/-- Among the symbols, the one that is spelled is found if no longer one is. -/
theorem symbol?_spelled {s : Symbol} (mem : .symbol s ∈ A) (clear : Clear A s rest) :
    symbol? A (s.spelling ++ rest) = some (.symbol s, s.spelling.length) := by
  obtain ⟨before, behind, all⟩ := List.append_of_mem s.mem_all
  have size : spellingLength? s.spelling (s.spelling ++ rest) = some s.spelling.length :=
    spellingLength?_eq_some.2 ⟨rfl, rest, rfl⟩
  refine symbol?_eq_some.2 ⟨mem, size, before, behind, all, ?_⟩
  intro t ht looked
  rw [Option.eq_none_iff_forall_ne_some]
  intro n found
  obtain ⟨-, more, eq⟩ := spellingLength?_eq_some.1 found
  -- a symbol that is tried before is not shorter, so it goes on where this one ends
  have sorted := Symbol.all_sorted
  rw [all, List.pairwise_append] at sorted
  have le := sorted.2.2 t ht s (by simp)
  obtain ⟨u, hu⟩ := List.prefix_of_prefix_length_le ⟨rest, rfl⟩ ⟨more, eq.symm⟩ le
  have goes : u ≠ [] := by
    rintro rfl
    rw [List.append_nil] at hu
    have same := spelling_injective hu
    have nodup : Symbol.all.Nodup := by decide
    rw [all, List.nodup_append] at nodup
    exact nodup.2.2 t ht s (by simp) same.symm
  refine clear t u looked hu.symm goes ?_
  have tails : rest = u ++ more := by
    rw [← hu, List.append_assoc] at eq
    exact List.append_cancel_left eq
  rw [tails, List.head?_append_of_ne_nil _ goes]

/-- With a character that starts no symbol, no symbol is found. -/
theorem symbol?_of_other {c : Char} (never : ∀ s ∈ Symbol.all, s.spelling.head? ≠ some c)
    (cs : List Char) : symbol? A (c :: cs) = none := by
  refine List.findSome?_eq_none_iff.2 fun s _ => ?_
  split
  · rw [Option.map_eq_none_iff, Option.eq_none_iff_forall_ne_some]
    intro n found
    obtain ⟨-, more, eq⟩ := spellingLength?_eq_some.1 found
    refine never s s.mem_all ?_
    have head := congrArg List.head? eq
    rw [List.head?_append_of_ne_nil _ (spelling_ne_nil s)] at head
    exact head.symm
  · rfl

/-- No symbol goes on with a character that no symbol has. -/
theorem clear_of_head {s : Symbol} {c : Char} (head : rest.head? = some c)
    (never : ∀ t ∈ Symbol.all, c ∉ t.spelling) : Clear A s rest := by
  intro t u _ eq ne same
  obtain ⟨d, u, rfl⟩ := List.exists_cons_of_ne_nil ne
  rw [head] at same
  cases same
  exact never t t.mem_all (by rw [eq]; simp)

/-- No symbol that is looked for goes on where a symbol ends. -/
def unrivalled (A : Expect) (s : Symbol) : Bool :=
  Symbol.all.all fun t => !(A.contains (.symbol t) && s.spelling.isPrefixOf t.spelling) ||
    t.spelling == s.spelling

/-- Where no symbol goes on, no longer one is spelled, whatever is behind. -/
theorem clear_of_unrivalled {s : Symbol} (h : unrivalled A s = true) : Clear A s rest := by
  intro t u looked eq ne _
  have here := List.all_eq_true.1 h t t.mem_all
  have starts : s.spelling.isPrefixOf t.spelling = true :=
    List.isPrefixOf_iff_prefix.2 ⟨u, eq.symm⟩
  rw [contains_of_mem looked, starts] at here
  have same : t.spelling = s.spelling := by simpa using here
  rw [same] at eq
  exact ne (List.self_eq_append_right.1 eq)

/-- A character that no number, word or string starts with. -/
def isOperator (c : Char) : Bool :=
  isSolid c && !(isLetter c || isDecimalDigit c || isSigil c || c = '\'' || c = '"')

/-- No word starts with what is no letter. -/
theorem word?_of_other {c : Char} (letter : ¬ isLetter c = true) (cs : List Char) :
    word? A (c :: cs) = none := by
  unfold word?
  split
  · rw [nameLength?, if_neg letter]
    rfl
  · refine List.findSome?_eq_none_iff.2 fun k _ => ?_
    split
    · rw [Option.map_eq_none_iff, Option.eq_none_iff_forall_ne_some]
      intro n found
      obtain ⟨-, more, eq⟩ := spellingLength?_eq_some.1 found
      obtain ⟨d, _, spelled, first⟩ := isLetter_keyword k
      rw [spelled] at eq
      cases eq
      exact letter first
    · rfl

/-- A symbol that is looked for is found, if no longer one is spelled there. -/
theorem reads_symbol {s : Symbol} (quiet : ordinary A = true) (layout : Gap false gap false)
    (mem : .symbol s ∈ A) (clear : Clear A s rest) (other : s ≠ .tildeBrace)
    (point : s = .dot → ∀ d ∈ rest.head?, isDecimalDigit d = false) :
    fe.Reads A gap (.symbol s) s.spelling rest := by
  have found := symbol?_spelled mem clear
  -- nothing that is tried before symbols starts with the first character of one
  obtain ⟨c, cs, eq, operator, dot⟩ : ∃ c cs, s.spelling = c :: cs ∧ isOperator c = true ∧
      (c = '.' → s = .dot ∧ cs = []) := by
    have each : ∀ s ∈ Symbol.all, s ≠ .tildeBrace →
        (s.spelling.head?.any fun c => isOperator c && (c ≠ '.' || s = .dot)) = true := by decide
    have here := each s s.mem_all other
    obtain ⟨c, cs, eq⟩ := List.exists_cons_of_ne_nil (spelling_ne_nil s)
    rw [eq] at here
    simp only [List.head?_cons, Option.any_some, Bool.and_eq_true, Bool.or_eq_true, ne_eq,
      decide_eq_true_eq] at here
    refine ⟨c, cs, eq, here.1, fun isDot => ?_⟩
    have same : s = .dot := here.2.resolve_left fun other => other isDot
    subst same
    cases eq
    exact ⟨rfl, rfl⟩
  rw [eq] at found ⊢
  have parts := operator
  simp only [isOperator, Bool.and_eq_true, Bool.not_eq_true', Bool.or_eq_false_iff,
    decide_eq_false_iff_not] at parts
  obtain ⟨solid, ⟨⟨⟨letter, digit⟩, sigil⟩, single⟩, double⟩ := parts
  refine reads_of_plain quiet layout solid ?_
  have number : number? fe A (c :: cs ++ rest) = none := by
    refine number?_of_other digit fun isDot => ?_
    obtain ⟨isDot, rfl⟩ := dot isDot
    exact point isDot
  have opening : class? A .opening openingLength? (c :: cs ++ rest) = none :=
    class?_of_none (openingLength?_of_other sigil _)
  have quoted : ∀ q, class? A (.quoted q) (quotedLength? q) (c :: cs ++ rest) = none := by
    intro q
    refine class?_of_none (quotedLength?_of_other ?_ _)
    cases q <;> assumption
  have mark : ∀ q : Quote,
      class? A (.mark q) (spellingLength? [q.char]) (c :: cs ++ rest) = none := by
    intro q
    refine class?_of_none ?_
    cases q <;> simp [spellingLength?, List.isPrefixOf, Quote.char] <;> exact Ne.symm ‹_›
  have word : word? A (c :: (cs ++ rest)) = none := word?_of_other (by simpa using letter) _
  simp only [plain?, number, opening, quoted, mark, class?_version quiet]
  rw [List.cons_append] at found ⊢
  rw [word, found]
  rfl

/-! ## Numbers and marks

What a numeral is found as is for `Numeral.scanSeparately` to say; here it is only shown that
nothing is tried before it. -/

/-- A numeral that is found as a number is found where numbers are looked for. -/
theorem reads_number {kind : NumeralKind} {chars : List Char} (quiet : ordinary A = true)
    (layout : Gap false gap false) (mem : .number .decimal ∈ A)
    (scan : Numeral.scanSeparately (chars ++ rest) = some (kind, chars.length)) :
    fe.Reads A gap (.number kind) chars rest := by
  have found : fe.scanNumber (chars ++ rest) = some (kind, chars.length) := by
    rw [FrontEnd.scanNumber_eq, scan]
  have pos := ((steady_number fe).fits found).1
  obtain ⟨c, cs, rfl⟩ := List.exists_cons_of_ne_nil (List.ne_nil_of_length_pos pos)
  -- a numeral starts with what is no layout, as no number does
  have solid : isSolid c = true := by
    by_contra other
    have layout : c = '\r' ∨ c = '\n' ∨ c = '#' ∨ c = ' ' ∨ c = '\t' := by
      simpa [isSolid, imp_iff_not_or, or_assoc] using other
    have none : fe.scanNumber (c :: cs ++ rest) = none := by
      refine scanNumber_of_other fe ?_ ?_
      · rcases layout with rfl | rfl | rfl | rfl | rfl <;> decide
      · rintro rfl
        simp at layout
    rw [none] at found
    cases found
  refine reads_of_plain quiet layout solid ?_
  have number : number? fe A (c :: cs ++ rest) = some (.number kind, (c :: cs).length) := by
    rw [number?, if_pos (contains_of_mem mem), found]
    rfl
  simp only [plain?, number]
  rfl

/-- The mark of a string is found where no whole string is looked for. -/
theorem reads_mark (quiet : ordinary A = true) (layout : Gap false gap false)
    (mem : .mark .double ∈ A) (whole : A.contains (.quoted .double) = false) :
    fe.Reads A gap (.mark .double) ['"'] rest := by
  refine reads_of_plain quiet layout (by decide) ?_
  have number : number? fe A ('"' :: rest) = none := number?_of_other (by decide) (by simp)
  have opening : class? A .opening openingLength? ('"' :: rest) = none :=
    class?_of_none (openingLength?_of_other rfl _)
  have single : class? A (.quoted .single) (quotedLength? .single) ('"' :: rest) = none :=
    class?_of_none (quotedLength?_of_other (by decide) _)
  have double : class? A (.quoted .double) (quotedLength? .double) ('"' :: rest) = none := by
    rw [class?, if_neg (by simpa using whole)]
  have found : class? A (.mark .double) (spellingLength? [Quote.double.char]) ('"' :: rest) =
      some (.mark .double, 1) := by
    rw [class?, if_pos (contains_of_mem mem)]
    simp [spellingLength?, Quote.char]
  have word : word? A ('"' :: rest) = none := word?_of_other (by decide) rest
  show plain? fe A ('"' :: rest) = _
  simp only [plain?, number, opening, single, double, word, class?_version quiet, found]
  rfl

/-- A string without escapes is found where the value of an option is looked for. -/
theorem reads_quoted {text : List Char} (plain : ∀ c ∈ text, c ≠ '"' ∧ c ≠ '\\' ∧ c ≠ '\n') :
    fe.Reads Expect.optionValue [] (.quoted .double) ('"' :: (text ++ ['"'])) rest := by
  refine reads_of_plain (by decide) (.nil false) (by decide) ?_
  show plain? fe Expect.optionValue ('"' :: (text ++ ['"'] ++ rest)) = _
  have number : number? fe Expect.optionValue ('"' :: (text ++ ['"'] ++ rest)) = none :=
    number?_of_other (by decide) (by simp)
  have opening : class? Expect.optionValue .opening openingLength?
      ('"' :: (text ++ ['"'] ++ rest)) = none := class?_of_none (openingLength?_of_other rfl _)
  have single : class? Expect.optionValue (.quoted .single) (quotedLength? .single)
      ('"' :: (text ++ ['"'] ++ rest)) = none :=
    class?_of_none (quotedLength?_of_other (by decide) _)
  have word : word? Expect.optionValue ('"' :: (text ++ ['"'] ++ rest)) = none :=
    word?_of_other (by decide) _
  have size : quotedLength? .double ('"' :: (text ++ ['"'] ++ rest)) = some (text.length + 2) := by
    have inner := doubleRest?_plain plain rest
    rw [List.append_assoc, List.singleton_append]
    simp [quotedLength?, Quote.char, inner]
  have found : class? Expect.optionValue (.quoted .double) (quotedLength? .double)
      ('"' :: (text ++ ['"'] ++ rest)) = some (.quoted .double, text.length + 2) := by
    rw [class?, if_pos (by decide), size]
    rfl
  simp only [plain?, number, opening, single, word, found]
  simp

/-! ## Inside strings

There layout is text, so nothing is skipped, and the literal text is found first if it is not empty.
What ends it, a mark or what opens a placeholder, is therefore found only where `stringTextLength`
gives nothing. -/

/-- What ends literal text is found inside a string, before and behind literal text. -/
theorem reads_inString {kind : Terminal} {c : Char} {cs : List Char}
    (hA : A = Expect.inString .double ∨ A = Expect.afterStringText .double)
    (solid : isSolid c = true) (ends : stringTextLength .double (c :: cs ++ rest) = 0)
    (found : plain? fe A (c :: cs ++ rest) = some (kind, (c :: cs).length)) :
    fe.Reads A [] kind (c :: cs) rest := by
  refine .inr ⟨?_, layoutLength_solid solid _, found⟩
  rcases hA with rfl | rfl
  · exact literal?_inString_eq_none.2 ends
  · exact calm_literal? rfl _

/-- The mark that closes a string is found inside it. -/
theorem reads_closing (hA : A = Expect.inString .double ∨ A = Expect.afterStringText .double) :
    fe.Reads A [] (.mark .double) ['"'] rest := by
  refine reads_inString hA (by decide) (stringTextLength_mark .double rest) ?_
  have opening : class? A .opening openingLength? ('"' :: rest) = none :=
    class?_of_none (openingLength?_of_other rfl _)
  have word : word? A ('"' :: rest) = none := word?_of_other (by decide) rest
  show plain? fe A ('"' :: rest) = _
  simp only [plain?, opening, word]
  rcases hA with rfl | rfl <;> simp [number?, class?, spellingLength?, Quote.char,
    Expect.inString, Expect.afterStringText]

/-- What opens a placeholder is found inside a string. -/
theorem reads_opening (hA : A = Expect.inString .double ∨ A = Expect.afterStringText .double) :
    fe.Reads A [] .opening ['~', '\x7b'] rest := by
  refine reads_inString hA (by decide) (stringTextLength_opening .double rfl rest) ?_
  show plain? fe A ('~' :: '\x7b' :: rest) = _
  simp only [plain?]
  rcases hA with rfl | rfl <;> simp [number?, class?, openingLength?, isSigil,
    Expect.inString, Expect.afterStringText]

/-- Literal text is found as a whole if no placeholder opens in it. -/
theorem reads_literal {text : Text} (ne : text ≠ []) (plain : Unopened text.chars)
    (stops : Stops rest) :
    fe.Reads (Expect.inString .double) [] (.stringText .double) (renderText text).chars rest := by
  refine .inl ⟨rfl, ?_⟩
  rw [literal?_inString, stringTextLength_renderText plain stops]
  have size : (renderText text).chars.length ≠ 0 := fun zero =>
    renderText_ne_nil ne (List.length_eq_zero_iff.1 zero)
  simp [positive?, size]

/-! ## What tokens spell -/

/-- A keyword is spelled out. -/
theorem FrontEnd.Reads.keyword {k : Keyword} {chars : List Char}
    (h : fe.Reads A gap (.keyword k) chars rest) : chars = k.spelling := by
  have found := word?_keyword (word?_of_plain? (h.plain rfl).2.2 (.inr ⟨k, rfl⟩))
  rwa [List.take_left] at found

/-- A symbol is spelled out. -/
theorem FrontEnd.Reads.symbol {s : Symbol} {chars : List Char}
    (h : fe.Reads A gap (.symbol s) chars rest) : chars = s.spelling := by
  obtain ⟨-, size, -⟩ := symbol?_eq_some.1 (symbol?_of_plain? (h.plain rfl).2.2)
  obtain ⟨length, more, eq⟩ := spellingLength?_eq_some.1 size
  exact (List.append_inj eq length).1

end Wdl
