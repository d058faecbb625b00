import Mathlib.Data.List.Nodup
import Wdl.Proofs.Numerals
import Wdl.Proofs.Script
import Wdl.Proofs.Tokens

/-!
# Wdl.Proofs.Contexts -- the same token among other terminals

Which token is found depends on which terminals are looked for. A token is found again when fewer
terminals are looked for, as long as its own is among them; and a symbol is found again among others
when none of them starts alike. These are the two ways in which a piece of a text is read in another
context when it is read alone.

* `number?_none_mono`, `class?_mono`, `word?_mono` and `symbol?_mono` are about the parts of the
  scanner for fewer terminals, and `plain?_mono` is about the scanner.
* `isPunctual` are symbols and words. Where only these are looked for, `plain?_punctual` leaves the
  symbols, and `symbol?_elsewhere` compares two sets of them.
* `word?_name`, `word?_keyword` and `nameLength?_of_plain?` say what a name or keyword that is found
  is spelled as. `plain?_expr_name` finds a name where an expression is looked for.
-/

namespace Wdl

namespace Scan

variable {fe : FrontEnd} {A B : Expect} {cs : List Char} {found : Terminal × Nat}

theorem contains_of_mem {t : Terminal} (h : t ∈ A) : A.contains t = true :=
  List.contains_iff_mem.2 h

/-! ## Fewer terminals

The scanner tries one kind of token after the other. With fewer terminals a kind tried before still
finds nothing, which is what the lemmas with `none` are for. Names have to stay among the terminals:
with them a word is read to its end before it is compared with keywords. -/

/-- Where no number is found, none is found among fewer terminals. -/
theorem number?_none_mono (sub : B ⊆ A) (h : number? fe A cs = none) : number? fe B cs = none := by
  unfold number? at h ⊢
  split
  · rename_i looked
    rwa [if_pos (contains_of_mem (sub (List.contains_iff_mem.1 looked)))] at h
  · rfl

/-- Where no token of a class is found, none is found among fewer terminals. -/
theorem class?_none_mono (sub : B ⊆ A) {t : Terminal} {f : List Char → Option Nat}
    (h : class? A t f cs = none) : class? B t f cs = none := by
  unfold class? at h ⊢
  split
  · rename_i looked
    rwa [if_pos (contains_of_mem (sub (List.contains_iff_mem.1 looked)))] at h
  · rfl

/-- A token of a class is found again if its terminal is still looked for. -/
theorem class?_mono {t : Terminal} {f : List Char → Option Nat} (h : class? A t f cs = some found)
    (mem : found.1 ∈ B) : class? B t f cs = some found := by
  obtain ⟨-, kind, size⟩ := class?_eq_some h
  rw [kind] at mem
  rw [class?, if_pos (contains_of_mem mem), size, ← kind]
  rfl

/-- Where names are looked for, a word is a name or a keyword that is looked for. -/
theorem word?_eq (mem : .name ∈ A) (cs : List Char) : word? A cs = (nameLength? cs).map fun n =>
    (((keywordOf? A (cs.take n)).map Terminal.keyword).getD .name, n) := by
  rw [word?, if_pos (contains_of_mem mem)]

/-- Where there is no word, there is none among fewer terminals. -/
theorem word?_none_mono (sub : B ⊆ A) (name : .name ∈ B) (h : word? A cs = none) :
    word? B cs = none := by
  rw [word?_eq (sub name), Option.map_eq_none_iff] at h
  rw [word?_eq name, h]
  rfl

/-- Where neither names nor keywords are looked for, no word is found. -/
theorem word?_unlooked (name : .name ∉ A) (keywords : ∀ k, .keyword k ∉ A) : word? A cs = none := by
  rw [word?, if_neg fun looked => name (List.contains_iff_mem.1 looked)]
  exact List.findSome?_eq_none_iff.2 fun k _ =>
    if_neg fun looked => keywords k (List.contains_iff_mem.1 looked)

/-- A keyword is one that is looked for, and spells the word. -/
theorem keywordOf?_eq_some {word : List Char} {k : Keyword} :
    keywordOf? A word = some k ↔ .keyword k ∈ A ∧ k.spelling = word := by
  unfold keywordOf?
  constructor
  · intro h
    have spells := List.find?_some h
    simp only [Bool.and_eq_true, List.contains_iff_mem, beq_iff_eq] at spells
    exact spells
  · rintro ⟨looked, spells⟩
    cases h : Keyword.all.find? (fun k => A.contains (.keyword k) && k.spelling == word) with
    | none =>
      have no := List.find?_eq_none.1 h k k.mem_all
      simp [looked, spells] at no
    | some k' =>
      have spells' := List.find?_some h
      simp only [Bool.and_eq_true, List.contains_iff_mem, beq_iff_eq] at spells'
      have same := List.inj_on_of_nodup_map Keyword.spellings_nodup k'.mem_all k.mem_all
        (spells'.2.trans spells.symm)
      rw [same]

theorem keywordOf?_eq_none {word : List Char} :
    keywordOf? A word = none ↔ ∀ k, .keyword k ∈ A → k.spelling ≠ word := by
  rw [Option.eq_none_iff_forall_ne_some]
  constructor
  · intro h k looked spells
    exact h k (keywordOf?_eq_some.2 ⟨looked, spells⟩)
  · intro h k found
    obtain ⟨looked, spells⟩ := keywordOf?_eq_some.1 found
    exact h k looked spells

/-- A word is found again: if it was a name, then with fewer keywords it still is. -/
theorem word?_mono (sub : B ⊆ A) (name : .name ∈ B) (h : word? A cs = some found)
    (mem : found.1 ∈ B) : word? B cs = some found := by
  rw [word?_eq (sub name)] at h
  rw [word?_eq name]
  obtain ⟨n, hn, rfl⟩ := Option.map_eq_some_iff.1 h
  rw [hn]
  cases known : keywordOf? A (cs.take n) with
  | none =>
    have none : keywordOf? B (cs.take n) = none :=
      keywordOf?_eq_none.2 fun k looked => keywordOf?_eq_none.1 known k (sub looked)
    rw [Option.map_some, none]
  | some k =>
    rw [known] at mem
    have same := keywordOf?_eq_some.2 ⟨mem, (keywordOf?_eq_some.1 known).2⟩
    rw [Option.map_some, same]

/-- The symbol that is found is the first one that is looked for and spelled there. -/
theorem symbol?_eq_some {s : Symbol} {n : Nat} :
    symbol? A cs = some (.symbol s, n) ↔ .symbol s ∈ A ∧ spellingLength? s.spelling cs = some n ∧
      ∃ before behind, Symbol.all = before ++ s :: behind ∧
        ∀ t ∈ before, .symbol t ∈ A → spellingLength? t.spelling cs = none := by
  rw [symbol?, List.findSome?_eq_some_iff]
  constructor
  · rintro ⟨before, t, behind, all, here, none⟩
    split at here
    · rename_i looked
      obtain ⟨m, size, eq⟩ := Option.map_eq_some_iff.1 here
      cases eq
      refine ⟨List.contains_iff_mem.1 looked, size, before, behind, all, ?_⟩
      intro t ht looked
      have no := none t ht
      rwa [if_pos (contains_of_mem looked), Option.map_eq_none_iff] at no
    · cases here
  · rintro ⟨looked, size, before, behind, all, none⟩
    refine ⟨before, s, behind, all, by rw [if_pos (contains_of_mem looked), size]; rfl, ?_⟩
    intro t ht
    split
    · rename_i looked
      rw [none t ht (List.contains_iff_mem.1 looked)]
      rfl
    · rfl

/-- A symbol is found again: those tried before it do not fit, looked for or not. -/
theorem symbol?_mono (sub : B ⊆ A) (h : symbol? A cs = some found) (mem : found.1 ∈ B) :
    symbol? B cs = some found := by
  obtain ⟨s, kind⟩ := symbol?_kind h
  obtain ⟨k, n⟩ := found
  cases kind
  obtain ⟨-, size, before, behind, all, none⟩ := symbol?_eq_some.1 h
  exact symbol?_eq_some.2
    ⟨mem, size, before, behind, all, fun t ht looked => none t ht (sub looked)⟩

/-- A token is found again when fewer terminals are looked for, names and numbers among them. -/
theorem plain?_mono (sub : B ⊆ A) (name : .name ∈ B) (number : .number .decimal ∈ B)
    (h : plain? fe A cs = some found) (mem : found.1 ∈ B) : plain? fe B cs = some found := by
  -- one case for each kind of token, in the order in which they are tried
  simp only [plain?, Option.orElse_eq_orElse, Option.orElse_eq_or, Option.or_eq_some_iff] at h ⊢
  rcases h with h | ⟨n₁, h | ⟨n₂, h | ⟨n₃, h | ⟨n₄, h | ⟨n₅, h | ⟨n₆, h | ⟨n₇, h | ⟨n₈, h⟩⟩⟩⟩⟩⟩⟩⟩
  · left
    rw [number?, if_pos (contains_of_mem (sub number))] at h
    rwa [number?, if_pos (contains_of_mem number)]
  all_goals refine .inr ⟨number?_none_mono sub n₁, ?_⟩
  · exact .inl (class?_mono h mem)
  all_goals refine .inr ⟨class?_none_mono sub n₂, ?_⟩
  · exact .inl (class?_mono h mem)
  all_goals refine .inr ⟨class?_none_mono sub n₃, ?_⟩
  · exact .inl (word?_mono sub name h mem)
  all_goals refine .inr ⟨word?_none_mono sub name n₄, ?_⟩
  · exact .inl (class?_mono h mem)
  all_goals refine .inr ⟨class?_none_mono sub n₅, ?_⟩
  · exact .inl (class?_mono h mem)
  all_goals refine .inr ⟨class?_none_mono sub n₆, ?_⟩
  · exact .inl (class?_mono h mem)
  all_goals refine .inr ⟨class?_none_mono sub n₇, ?_⟩
  · exact .inl (class?_mono h mem)
  · exact .inr ⟨class?_none_mono sub n₈, symbol?_mono sub h mem⟩

/-! ## Other terminals

A symbol is looked for together with others that it could be mistaken for. Two sets of terminals
that agree on the symbols with the same first character find the same. -/

/-- A symbol or a word. -/
def isPunctual : Terminal → Bool
  | .symbol _ | .name | .keyword _ => true
  | _ => false

/-- No token of another class is looked for among symbols and words. -/
theorem class?_punctual (h : A.all isPunctual = true) {t : Terminal} (other : isPunctual t = false)
    (f : List Char → Option Nat) : class? A t f cs = none := by
  have missing : ¬ A.contains t = true := by
    intro looked
    rw [List.all_eq_true.1 h t (List.contains_iff_mem.1 looked)] at other
    cases other
  rw [class?, if_neg missing]

/-- Where only symbols and words are looked for, and no word is ahead, a symbol is found. -/
theorem plain?_punctual (h : A.all isPunctual = true) (word : word? A cs = none) :
    plain? fe A cs = symbol? A cs := by
  have number : number? fe A cs = none := by
    have missing : ¬ A.contains (.number .decimal) = true := by
      intro looked
      cases List.all_eq_true.1 h _ (List.contains_iff_mem.1 looked)
    rw [number?, if_neg missing]
  simp only [plain?, number, word, class?_punctual h (t := .opening) rfl,
    class?_punctual h (t := .quoted .single) rfl, class?_punctual h (t := .quoted .double) rfl,
    class?_punctual h (t := .versionWord) rfl, class?_punctual h (t := .mark .double) rfl,
    class?_punctual h (t := .mark .single) rfl]
  rfl

/-- A spelling is found where the text starts with it. -/
theorem spellingLength?_eq_some {spelling : List Char} {n : Nat} :
    spellingLength? spelling cs = some n ↔ n = spelling.length ∧ ∃ rest, cs = spelling ++ rest := by
  unfold spellingLength?
  split
  · rename_i spelled
    obtain ⟨rest, rfl⟩ := List.isPrefixOf_iff_prefix.1 spelled
    simp [eq_comm]
  · rename_i other
    simp only [reduceCtorEq, false_iff, not_and, not_exists]
    rintro - rest rfl
    exact other (List.isPrefixOf_iff_prefix.2 (List.prefix_append _ _))

theorem spelling_ne_nil (s : Symbol) : s.spelling ≠ [] := by cases s <;> decide

/-- A symbol is found among others if those that start alike were looked for before. -/
theorem symbol?_elsewhere {s : Symbol} {n : Nat} (h : symbol? A cs = some (.symbol s, n))
    (mem : .symbol s ∈ B)
    (alike : ∀ t, .symbol t ∈ B → t.spelling.head? = s.spelling.head? → .symbol t ∈ A) :
    symbol? B cs = some (.symbol s, n) := by
  obtain ⟨-, size, before, behind, all, none⟩ := symbol?_eq_some.1 h
  refine symbol?_eq_some.2 ⟨mem, size, before, behind, all, ?_⟩
  intro t ht looked
  cases found : spellingLength? t.spelling cs with
  | none => rfl
  | some m =>
    obtain ⟨-, rest, eq⟩ := spellingLength?_eq_some.1 found
    obtain ⟨-, rest', eq'⟩ := spellingLength?_eq_some.1 size
    have heads : t.spelling.head? = s.spelling.head? := by
      have first := @List.head?_append_of_ne_nil _ _ rest (spelling_ne_nil t)
      rw [← first, ← eq, eq', List.head?_append_of_ne_nil _ (spelling_ne_nil s)]
    rw [none t ht (alike t looked heads)] at found
    cases found

/-! ## Names

A word that is found says what it is by its characters: a keyword by its spelling, a name by
spelling no keyword that is looked for. -/

theorem isLetter_bounds {c : Char} (h : isLetter c = true) : 65 ≤ c.toNat ∧ c.toNat ≤ 122 := by
  simp only [isLetter, Bool.or_eq_true, Bool.and_eq_true, decide_eq_true_eq, Char.le_def,
    UInt32.le_iff_toNat_le] at h
  rcases h with ⟨lo, hi⟩ | ⟨lo, hi⟩
  · exact ⟨Nat.le_trans (by decide) lo, hi⟩
  · exact ⟨lo, Nat.le_trans hi (by decide)⟩

/-- A letter is no digit of any script. -/
theorem isDecimalDigit_of_letter {c : Char} (h : isLetter c = true) : isDecimalDigit c = false := by
  have zeros : ∀ z ∈ decimalZeros, z + 10 ≤ 65 ∨ 122 < z := by decide
  have bounds := isLetter_bounds h
  rw [isDecimalDigit, decimalDigit?, Option.isSome_map, ← Bool.not_eq_true, List.find?_isSome]
  rintro ⟨z, mem, inside⟩
  simp only [Bool.and_eq_true, decide_eq_true_eq] at inside
  have := zeros z mem
  omega

/-- No number starts with what is neither a digit nor a point, nor with a point alone. -/
theorem scanNumber_of_other (fe : FrontEnd) {c : Char} (digit : isDecimalDigit c = false)
    {cs : List Char} (point : c = '.' → ∀ d ∈ cs.head?, isDecimalDigit d = false) :
    fe.scanNumber (c :: cs) = none := by
  have ascii : ¬ isAsciiDigit c = true := by
    intro ascii
    rw [Numeral.isDecimalDigit_of_ascii ascii] at digit
    cases digit
  have zero : c ≠ '0' := by
    rintro rfl
    exact ascii (by decide)
  have range : ¬ ('1' ≤ c ∧ c ≤ '9') := fun range => ascii (Numeral.isAsciiDigit_of_range range)
  -- every notation starts with digits or a point, and behind a point are digits
  have run : Numeral.runLength isDecimalDigit (c :: cs) = 0 := by
    simp [Numeral.runLength, digit]
  have pointed : Numeral.pointLength? (c :: cs) = none := by
    unfold Numeral.pointLength?
    simp only [run, List.drop_zero]
    split
    · rename_i rest eq
      obtain ⟨isPoint, rfl⟩ := List.cons_eq_cons.1 eq
      have none : Numeral.runLength isDecimalDigit cs = 0 :=
        @Numeral.runLength_ended _ [] cs (by simp) (point isPoint)
      simp [none]
    · rfl
  have scientific : Numeral.scientificLength? (c :: cs) = none := by
    simp [Numeral.scientificLength?, Numeral.runLength?, run]
  have hexadecimal : Numeral.hexLength? (c :: cs) = none := by
    cases cs <;> simp [Numeral.hexLength?, zero]
  rw [FrontEnd.scanNumber_eq, Numeral.scanSeparately]
  simp only [Numeral.kinds, List.findSome?_cons, Numeral.lengthIn?, Numeral.fractionLength?,
    pointed, scientific, hexadecimal, Numeral.octalLength?, Numeral.decimalLength?, if_neg zero,
    if_neg range]
  rfl

/-- No number is found at a character that is no digit, nor at a point without digits behind it. -/
theorem number?_of_other {c : Char} (digit : isDecimalDigit c = false) {cs : List Char}
    (point : c = '.' → ∀ d ∈ cs.head?, isDecimalDigit d = false) :
    number? fe A (c :: cs) = none := by
  rw [number?, scanNumber_of_other fe digit point]
  simp

/-- A name that is found is a word, and spells none of the keywords that are looked for. -/
theorem word?_name {cs : List Char} {n : Nat} (h : word? A cs = some (.name, n)) :
    nameLength? cs = some n ∧ ∀ k, .keyword k ∈ A → k.spelling ≠ cs.take n := by
  unfold word? at h
  split at h
  · obtain ⟨m, size, eq⟩ := Option.map_eq_some_iff.1 h
    obtain ⟨kind, rfl⟩ := Prod.ext_iff.1 eq
    refine ⟨size, keywordOf?_eq_none.1 ?_⟩
    cases known : keywordOf? A (cs.take m) with
    | none => rfl
    | some k =>
      rw [known] at kind
      cases kind
  · obtain ⟨k, -, h⟩ := List.exists_of_findSome?_eq_some h
    split at h
    · obtain ⟨m, -, eq⟩ := Option.map_eq_some_iff.1 h
      cases eq
    · cases h

/-- A keyword that is found is spelled out. -/
theorem word?_keyword {cs : List Char} {k : Keyword} {n : Nat}
    (h : word? A cs = some (.keyword k, n)) : cs.take n = k.spelling := by
  unfold word? at h
  split at h
  · obtain ⟨m, -, eq⟩ := Option.map_eq_some_iff.1 h
    obtain ⟨kind, rfl⟩ := Prod.ext_iff.1 eq
    cases known : keywordOf? A (cs.take m) with
    | none =>
      rw [known] at kind
      cases kind
    | some k' =>
      rw [known] at kind
      cases kind
      exact (keywordOf?_eq_some.1 known).2.symm
  · obtain ⟨k, -, h⟩ := List.exists_of_findSome?_eq_some h
    split at h
    · obtain ⟨m, size, eq⟩ := Option.map_eq_some_iff.1 h
      cases eq
      obtain ⟨rfl, rest, rfl⟩ := spellingLength?_eq_some.1 size
      exact List.take_left
    · cases h

/-- Only words are found as names and keywords. -/
theorem word?_of_plain? {t : Terminal} {cs : List Char} {n : Nat} (h : plain? fe A cs = some (t, n))
    (word : t = .name ∨ ∃ k, t = .keyword k) : word? A cs = some (t, n) := by
  rcases word with rfl | ⟨k, rfl⟩
  · exact plain?_found h
  · exact plain?_found h

/-- Only symbols are found as symbols. -/
theorem symbol?_of_plain? {cs : List Char} {s : Symbol} {n : Nat}
    (h : plain? fe A cs = some (.symbol s, n)) : symbol? A cs = some (.symbol s, n) :=
  plain?_found h

/-- The word of a name that is found. -/
theorem nameLength?_of_plain? {cs : List Char} {n : Nat} (h : plain? fe A cs = some (.name, n)) :
    nameLength? cs = some n := (word?_name (word?_of_plain? h (.inl rfl))).1

/-- A word that spells none of the keywords among them is found as a name where an expression is
looked for. -/
theorem plain?_expr_name {cs : List Char} {n : Nat} (h : nameLength? cs = some n)
    (other : ∀ k, .keyword k ∈ Expect.expr → k.spelling ≠ cs.take n) :
    plain? fe Expect.expr cs = some (.name, n) := by
  have number : number? fe Expect.expr cs = none := by
    unfold nameLength? at h
    split at h
    · cases h
    · split at h
      · rename_i letter
        refine number?_of_other (isDecimalDigit_of_letter letter) ?_
        rintro rfl
        cases letter
      · cases h
  have word : word? Expect.expr cs = some (.name, n) := by
    rw [word?_eq (by decide), h, Option.map_some, keywordOf?_eq_none.2 other]
    rfl
  have opening : class? Expect.expr .opening openingLength? cs = none := rfl
  have quoted : class? Expect.expr (.quoted .single) (quotedLength? .single) cs = none := rfl
  simp [plain?, number, word, opening, quoted]

/-! ## Inside a string -/

theorem openingLength?_eq_some {n : Nat} (h : openingLength? cs = some n) :
    n = 2 ∧ ∃ c, isSigil c = true ∧ cs.take n = [c, '\x7b'] := by
  unfold openingLength? at h
  split at h
  · rename_i c d rest
    split at h
    · rename_i opens
      cases h
      exact ⟨rfl, c, opens.1, by simp [opens.2]⟩
    · cases h
  · cases h

/-- Inside a string, what is no literal text is the mark of the string or opens a placeholder. -/
theorem plain?_inString {q : Quote} (hA : A = Expect.inString q ∨ A = Expect.afterStringText q)
    (h : plain? fe A cs = some found) :
    (found.1 = .mark q ∧ cs.take found.2 = [q.char]) ∨
      (found.1 = .opening ∧ ∃ c, isSigil c = true ∧ cs.take found.2 = [c, '\x7b']) := by
  have looked : ∀ t ∈ A, t = .mark q ∨ t = .stringText q ∨ t = .opening := by
    intro t ht
    rcases hA with rfl | rfl
    · simpa [Expect.inString] using ht
    · rcases List.mem_cons.1 ht with rfl | ht
      · exact .inl rfl
      · exact .inr (.inr (List.mem_singleton.1 ht))
  have word : word? A cs = none := word?_unlooked (fun mem => by simpa using looked _ mem)
    fun k mem => by simpa using looked _ mem
  have byClass : ∀ {t : Terminal} {f : List Char → Option Nat}, class? A t f cs = some found →
      t = .mark q ∨ t = .stringText q ∨ t = .opening :=
    fun h => looked _ (List.contains_iff_mem.1 (class?_eq_some h).1)
  obtain ⟨t, n⟩ := found
  have part := plain?_found h
  cases t with
  | keyword k => cases word.symm.trans part
  | name => cases word.symm.trans part
  | symbol s => simpa using looked _ (symbol?_eq_some.1 part).1
  | number kind => simpa using looked _ (number?_eq_some part).1
  | quoted q' => simpa using byClass part
  | versionWord => simpa using byClass part
  | stringText q' => cases part
  | commandText style => cases part
  | mark q' =>
    have same : q' = q := by simpa using byClass part
    subst same
    obtain ⟨size, rest, rfl⟩ := spellingLength?_eq_some.1 (class?_eq_some part).2.2
    exact .inl ⟨rfl, by rw [size]; rfl⟩
  | opening => exact .inr ⟨rfl, (openingLength?_eq_some (class?_eq_some part).2.2).2⟩

/-- Literal text goes on until something else starts. -/
theorem stringTextLength_rest (q : Quote) (r : List Char) :
    (t : List Char) → stringTextLength q (t ++ r) = t.length → stringTextLength q r = 0
  | [], h => h
  | [c], h => by
    cases r with
    | nil => rfl
    | cons d cs =>
      simp only [List.singleton_append, stringTextLength_cons₂, List.length_singleton] at h
      grind
  | c :: d :: t, h => by
    have ih := stringTextLength_rest q r t
    have ih' := stringTextLength_rest q r (d :: t)
    simp only [List.cons_append, List.length_cons, stringTextLength_cons₂] at h ih'
    grind

/-- What starts where no literal text does. -/
theorem stringTextLength_cons_eq_zero {q : Quote} {c : Char} {cs : List Char}
    (h : stringTextLength q (c :: cs) = 0) : c = q.char ∨ isSigil c = true := by
  cases cs with
  | nil =>
    rw [stringTextLength_single] at h
    grind
  | cons d cs =>
    rw [stringTextLength_cons₂] at h
    grind

/-- The mark of a string ends its literal text, whatever comes next. -/
theorem stringTextLength_mark (q : Quote) (cs : List Char) :
    stringTextLength q (q.char :: cs) = 0 := by
  cases cs with
  | nil => cases q <;> rfl
  | cons d cs => cases q <;> simp [stringTextLength_cons₂, Quote.char]

/-- What opens a placeholder ends the literal text of a string, whatever comes next. -/
theorem stringTextLength_opening (q : Quote) {c : Char} (sigil : isSigil c = true)
    (cs : List Char) : stringTextLength q (c :: '\x7b' :: cs) = 0 := by
  have backslash : c ≠ '\\' := by
    rintro rfl
    cases sigil
  rw [stringTextLength_cons₂, if_neg backslash]
  simp [sigil]

end Scan

end Wdl
