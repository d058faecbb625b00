import Mathlib.Data.List.TakeWhile
import Wdl.Text.Escape

/-!
# Wdl.Proofs.Escapes -- literal text read from left to right

A text is cut into runs before it is decoded. Here it is read as one, by a rule that knows nothing
of runs. The rule is stated for any table of character names, `CharacterNames`: a name in braces
means the character that the table has for it, and a name that is not in the table is a fault.

* `Means names keeps next body out` says what may stand behind a backslash in front of `next`, and
  what it gives. It has a constructor for each kind of escape, `Means.named` for names and
  `Means.code` for numbers among them; a number gives its code point, surrogates included.
* `Decodes names keeps cs out` takes a text from the left, one character or one escape after the
  other, and never looks again at what an escape has given.
* `Fault names keeps cs` says what an escape cannot be read from; `Fault.nameless` is a name no
  character has.
* All three leave open which characters keep the backslash in front of them if they have no meaning
  there. A decoder `Follows` the rule if it takes a text the same way; `Follows.eq_some_iff` and
  `Follows.eq_none_iff` then say what it gives. `follows_decodeRun` and `follows_decode` are about
  the two decoders.

The main statements are that a text is decoded to just what it says if those are the run characters
(`decode_eq_some_iff`), that it is refused just where reading it so finds a fault
(`decode_eq_none_iff`), and that decoding it as a single run would make a difference only for a
backslash at the end of a run (`decode_eq_some_iff_uncut`). `decode_named` is the case of a name.
-/

namespace Wdl.Escape

/-! ## The rule

`next` is an index of `Means` because octal digits are taken greedily: with fewer than three of
them, what follows must not start with another. -/

/-- The letters behind which a code point is written, and with how many hexadecimal digits. -/
def codeLetters : List (Char × Nat) := [('x', 2), ('u', 4), ('U', 8)]

/-- The characters that have a meaning behind a backslash. -/
def hasMeaning (c : Char) : Bool :=
  isOctalDigit c || ['\n', '\\', '\'', '"', 'N'].contains c ||
    (controls.map Prod.fst).contains c || (codeLetters.map Prod.fst).contains c

/-- What stands behind a backslash in front of the rest of a text, and what they give together. -/
inductive Means (names : CharacterNames) (keeps : Char → Bool) (next : List Char) :
    List Char → Text → Prop
  | lineFeed : Means names keeps next ['\n'] []
  | itself {c : Char} (h : c ∈ ['\\', '\'', '"']) : Means names keeps next [c] [.char c]
  | control {c d : Char} (h : (c, d) ∈ controls) : Means names keeps next [c] [.char d]
  | octal {digits : List Char} (filled : digits ≠ []) (few : digits.length ≤ 3)
      (each : ∀ d ∈ digits, isOctalDigit d = true)
      (most : digits.length = 3 ∨ ∀ d ∈ next.head?, isOctalDigit d = false) :
      Means names keeps next digits [.char (Char.ofNat (octalNumber digits))]
  | code {letter : Char} {count : Nat} {digits : List Char} {values : List Nat} {p : CodePoint}
      (h : (letter, count) ∈ codeLetters) (size : digits.length = count)
      (each : digits.mapM hexDigit? = some values) (number : p.toNat = ofDigits 16 values) :
      Means names keeps next (letter :: digits) [p]
  | named {name : List Char} {c : Char} (filled : name ≠ []) (closed : '\x7d' ∉ name)
      (known : names.find name = some c) :
      Means names keeps next ('N' :: '\x7b' :: (name ++ ['\x7d'])) [.char c]
  | other {c : Char} (h : hasMeaning c = false) (kept : keeps c = true) :
      Means names keeps next [c] [.char '\\', .char c]

/-- A text read from the left: a backslash together with what stands behind it, any other character
for itself. -/
inductive Decodes (names : CharacterNames) (keeps : Char → Bool) : List Char → Text → Prop
  | nil : Decodes names keeps [] []
  | char {c : Char} {cs : List Char} {out : Text} (plain : c ≠ '\\')
      (rest : Decodes names keeps cs out) : Decodes names keeps (c :: cs) (.char c :: out)
  | escape {body next : List Char} {here out : Text} (means : Means names keeps next body here)
      (rest : Decodes names keeps next out) :
      Decodes names keeps ('\\' :: (body ++ next)) (here ++ out)

/-- What no escape starts with: nothing at all, a character that keeps no backslash, too few digits,
the number of no code point, or the letter of a name without braces behind it that hold a name some
character has. -/
inductive Fault (names : CharacterNames) (keeps : Char → Bool) : List Char → Prop
  | ends : Fault names keeps []
  | foreign {c : Char} {rest : List Char} (h : keeps c = false) : Fault names keeps (c :: rest)
  | short {letter : Char} {count : Nat} {rest : List Char} (h : (letter, count) ∈ codeLetters)
      (few : (rest.takeWhile isHexDigit).length < count) : Fault names keeps (letter :: rest)
  | outside {letter : Char} {count : Nat} {digits rest : List Char} {values : List Nat}
      (h : (letter, count) ∈ codeLetters) (size : digits.length = count)
      (each : digits.mapM hexDigit? = some values) (outside : 0x110000 ≤ ofDigits 16 values) :
      Fault names keeps (letter :: (digits ++ rest))
  | nameless {rest : List Char} (unknown : ∀ name next c, name ≠ [] → '\x7d' ∉ name →
      names.find name = some c → rest ≠ '\x7b' :: (name ++ '\x7d' :: next)) :
      Fault names keeps ('N' :: rest)

/-! ## Digits -/

/-- Digits have values just if each of them is a digit. -/
theorem exists_values_iff {digits : List Char} :
    (∃ values, digits.mapM hexDigit? = some values) ↔ ∀ d ∈ digits, isHexDigit d = true := by
  induction digits with
  | nil => simp
  | cons d digits ih =>
    rw [List.forall_mem_cons, ← ih, List.mapM_cons, isHexDigit]
    cases hexDigit? d with
    | none => simp
    | some v => cases digits.mapM hexDigit? <;> simp

/-- Enough digits are read whatever is behind them. -/
theorem hexNumber?_append {digits : List Char} {values : List Nat}
    (each : digits.mapM hexDigit? = some values) (next : List Char) :
    hexNumber? digits.length (digits ++ next) = some (ofDigits 16 values) := by
  simp [hexNumber?, each]

/-- Too few digits are no number. -/
theorem hexNumber?_short {count : Nat} {rest : List Char}
    (few : (rest.takeWhile isHexDigit).length < count) : hexNumber? count rest = none := by
  unfold hexNumber?
  dsimp only
  split
  · rename_i size
    cases each : (rest.take count).mapM hexDigit? with
    | none => rfl
    | some values =>
      -- If all that are asked for had values, that many digits would follow.
      have whole := List.takeWhile_eq_self_iff.2 (exists_values_iff.1 ⟨values, each⟩)
      rw [← List.take_takeWhile] at whole
      have length := congrArg List.length whole
      rw [List.length_take, size] at length
      omega
  · rfl

/-- Where enough digits stand, there is a number. -/
theorem exists_digits {count : Nat} {rest : List Char}
    (enough : count ≤ (rest.takeWhile isHexDigit).length) :
    ∃ digits next values, rest = digits ++ next ∧ digits.length = count ∧
      digits.mapM hexDigit? = some values := by
  obtain ⟨next, split⟩ : (rest.takeWhile isHexDigit).take count <+: rest :=
    (List.take_prefix count _).trans (List.takeWhile_prefix _)
  have each : ∀ d ∈ (rest.takeWhile isHexDigit).take count, isHexDigit d = true :=
    fun d hd => List.mem_takeWhile_imp (List.mem_of_mem_take hd)
  obtain ⟨values, each⟩ := exists_values_iff.2 each
  refine ⟨_, next, values, split.symm, ?_, each⟩
  rw [List.length_take]
  omega

/-- From an octal digit on there are up to three, and no other follows if there are fewer. -/
theorem exists_octalDigits {c : Char} (octal : isOctalDigit c = true) (rest : List Char) :
    ∃ digits next, c :: rest = digits ++ next ∧ digits ≠ [] ∧ digits.length ≤ 3 ∧
      (∀ d ∈ digits, isOctalDigit d = true) ∧
      (digits.length = 3 ∨ ∀ d ∈ next.head?, isOctalDigit d = false) := by
  have filled : (c :: rest).takeWhile isOctalDigit ≠ [] := by
    rw [List.takeWhile_cons_of_pos octal]
    exact List.cons_ne_nil _ _
  have each : ∀ d ∈ (c :: rest).takeWhile isOctalDigit, isOctalDigit d = true :=
    fun d hd => List.mem_takeWhile_imp hd
  rcases Nat.lt_or_ge ((c :: rest).takeWhile isOctalDigit).length 3 with few | enough
  · refine ⟨_, (c :: rest).dropWhile isOctalDigit, List.takeWhile_append_dropWhile.symm, filled,
      Nat.le_of_lt few, each, .inr ?_⟩
    intro d hd
    have ends := List.head?_dropWhile_not isOctalDigit (c :: rest)
    rwa [Option.mem_def.1 hd] at ends
  · obtain ⟨next, split⟩ : ((c :: rest).takeWhile isOctalDigit).take 3 <+: c :: rest :=
      (List.take_prefix 3 _).trans (List.takeWhile_prefix _)
    have three : (((c :: rest).takeWhile isOctalDigit).take 3).length = 3 := by
      rw [List.length_take]
      omega
    refine ⟨_, next, split.symm, ?_, Nat.le_of_eq three, ?_, .inl three⟩
    · exact List.ne_nil_of_length_pos (by omega)
    · exact fun d hd => each d (List.mem_of_mem_take hd)

/-- Up to three octal digits are read whatever is behind them, unless it is another digit. -/
theorem octalDigits_append {digits next : List Char} (few : digits.length ≤ 3)
    (each : ∀ d ∈ digits, isOctalDigit d = true)
    (most : digits.length = 3 ∨ ∀ d ∈ next.head?, isOctalDigit d = false) :
    octalDigits (digits ++ next) = digits := by
  unfold octalDigits
  rw [← List.take_takeWhile, List.takeWhile_append_of_pos each]
  rcases most with three | last
  · rw [← three, List.take_left]
  · cases next with
    | nil => simpa using List.take_of_length_le few
    | cons d next =>
      have ends : isOctalDigit d = false := last d rfl
      simpa [ends] using List.take_of_length_le few

/-! ## Names -/

section Names

variable {names : CharacterNames} {name : List Char}

/-- A name in braces is looked up, and no brace is part of it. -/
theorem nameEscape_append (filled : name ≠ []) (closed : '\x7d' ∉ name) (next : List Char) :
    nameEscape names ('\x7b' :: (name ++ '\x7d' :: next)) =
      (names.find name).map fun c => ⟨[.char c], name.length + 3⟩ := by
  have others : ∀ d ∈ name, (d != '\x7d') = true := by
    intro d mem
    rw [bne_iff_ne]
    rintro rfl
    exact closed mem
  have whole : (name ++ '\x7d' :: next).takeWhile (· != '\x7d') = name := by
    rw [List.takeWhile_append_of_pos others, List.takeWhile_cons_of_neg (by simp),
      List.append_nil]
  have open_ : ¬(name = [] ∨ name.length = (name ++ '\x7d' :: next).length) := by
    rw [List.length_append, List.length_cons]
    rintro (empty | long)
    · exact filled empty
    · omega
  rw [nameEscape, whole, if_neg open_]

/-- Behind the characters up to a closing brace there is the brace, unless they are all there is. -/
theorem eq_takeWhile_append_brace {cs : List Char}
    (more : (cs.takeWhile (· != '\x7d')).length ≠ cs.length) :
    cs = cs.takeWhile (· != '\x7d') ++ '\x7d' :: (cs.dropWhile (· != '\x7d')).tail := by
  have split : cs.takeWhile (· != '\x7d') ++ cs.dropWhile (· != '\x7d') = cs :=
    List.takeWhile_append_dropWhile
  cases behind : cs.dropWhile (· != '\x7d') with
  | nil =>
    rw [behind, List.append_nil] at split
    exact absurd (congrArg List.length split) more
  | cons d rest =>
    have ends := List.head?_dropWhile_not (· != '\x7d') cs
    rw [behind] at ends
    obtain rfl : d = '\x7d' := by simpa using ends
    rw [List.tail_cons, ← behind, split]

/-- What is read as a name stands between braces, and some character has it. -/
theorem exists_name {rest : List Char} {d : Decoded} (h : nameEscape names rest = some d) :
    ∃ name next c, name ≠ [] ∧ '\x7d' ∉ name ∧ names.find name = some c ∧
      rest = '\x7b' :: (name ++ '\x7d' :: next) := by
  unfold nameEscape at h
  split at h
  · rename_i rest
    dsimp only at h
    split at h
    · cases h
    · rename_i proper
      obtain ⟨c, known, -⟩ := Option.map_eq_some_iff.1 h
      rw [not_or] at proper
      refine ⟨_, (rest.dropWhile (· != '\x7d')).tail, c, proper.1, ?_, known, ?_⟩
      · intro mem
        simpa using List.mem_takeWhile_imp mem
      · exact congrArg ('\x7b' :: ·) (eq_takeWhile_append_brace proper.2)
  · cases h

end Names

/-! ## One escape

`afterBackslash` reads an escape by trying its kinds in turn. `Means.afterBackslash_eq` and
`Fault.afterBackslash_eq` say that the relation describes it, and `means_or_fault` that one of the
two applies to every text, whatever the table of names. -/

section Escapes

variable {names : CharacterNames} {keeps : Char → Bool} {body next : List Char} {out : Text}

/-- What follows an escape can change what it means by a further digit only. -/
theorem Means.before {next' : List Char} (means : Means names keeps next body out)
    (h : ∀ d ∈ next'.head?, isOctalDigit d = true → d ∈ next.head?) :
    Means names keeps next' body out := by
  cases means with
  | lineFeed => exact .lineFeed
  | itself c => exact .itself c
  | control c => exact .control c
  | octal filled few each most =>
    refine .octal filled few each (most.imp_right fun last d hd => ?_)
    by_contra digit
    rw [Bool.not_eq_false] at digit
    exact absurd digit (by simp [last d (h d hd digit)])
  | code c size each number => exact .code c size each number
  | named filled closed known => exact .named filled closed known
  | other c kept => exact .other c kept

/-- An escape means the same in front of more text, if that starts with no digit. -/
theorem Means.append {rest : List Char} (means : Means names keeps next body out)
    (ends : ∀ d ∈ rest.head?, isOctalDigit d = false) :
    Means names keeps (next ++ rest) body out := by
  refine means.before fun d hd octal => ?_
  cases next with
  | nil => exact absurd octal (by simp [ends d hd])
  | cons e next => exact hd

/-- What keeps a backslash matters only for a character without a meaning. -/
theorem Means.kept_or (means : Means names keeps next body out) (keeps' : Char → Bool) :
    Means names keeps' next body out ∨ ∃ c, body = [c] ∧ keeps' c = false := by
  cases means with
  | lineFeed => exact .inl .lineFeed
  | itself h => exact .inl (.itself h)
  | control h => exact .inl (.control h)
  | octal filled few each most => exact .inl (.octal filled few each most)
  | code h size each number => exact .inl (.code h size each number)
  | named filled closed known => exact .inl (.named filled closed known)
  | @other c h _ =>
    cases kept : keeps' c with
    | true => exact .inl (.other h kept)
    | false => exact .inr ⟨c, rfl, kept⟩

theorem afterBackslash_code {letter : Char} {count : Nat} (h : (letter, count) ∈ codeLetters)
    (rest : List Char) : afterBackslash names (letter :: rest) = hexEscape count rest := by
  simp only [codeLetters, List.mem_cons, List.not_mem_nil, or_false, Prod.mk.injEq] at h
  rcases h with ⟨rfl, rfl⟩ | ⟨rfl, rfl⟩ | ⟨rfl, rfl⟩
  · rfl
  · rfl
  · rfl

theorem afterBackslash_octal {c : Char} (octal : isOctalDigit c = true) (rest : List Char) :
    afterBackslash names (c :: rest) = some (octalEscape (c :: rest)) := by
  have other : c ≠ '\n' ∧ ¬(c = '\\' ∨ c = '\'' ∨ c = '"') := by
    constructor
    · rintro rfl
      cases octal
    · rintro (rfl | rfl | rfl)
      · cases octal
      · cases octal
      · cases octal
  rw [afterBackslash, if_neg other.1, if_neg other.2, if_pos octal]

theorem hasMeaning_iff {c : Char} : hasMeaning c = true ↔
    isOctalDigit c = true ∨ c ∈ ['\n', '\\', '\'', '"', 'N'] ∨ (∃ d, (c, d) ∈ controls) ∨
      ∃ count, (c, count) ∈ codeLetters := by
  simp [hasMeaning, or_assoc]

/-- A character without a meaning keeps its backslash. -/
theorem afterBackslash_other {c : Char} (h : hasMeaning c = false) (rest : List Char) :
    afterBackslash names (c :: rest) = some ⟨[.char '\\', .char c], 1⟩ := by
  rw [← Bool.not_eq_true, hasMeaning_iff, not_or, not_or, not_or, not_exists, not_exists] at h
  obtain ⟨octal, marks, controls, letters⟩ := h
  have unnamed : Escape.controls.lookup c = none := by
    rw [List.lookup_eq_none_iff]
    rintro ⟨d, e⟩ hp
    rw [bne_iff_ne]
    rintro rfl
    exact controls e hp
  have letters : c ≠ 'x' ∧ c ≠ 'u' ∧ c ≠ 'U' := by
    refine ⟨?_, ?_, ?_⟩
    · rintro rfl
      exact letters 2 (by simp [codeLetters])
    · rintro rfl
      exact letters 4 (by simp [codeLetters])
    · rintro rfl
      exact letters 8 (by simp [codeLetters])
  simp only [List.mem_cons, List.not_mem_nil, or_false, not_or] at marks
  simp [afterBackslash, octal, marks, letters, unnamed]

/-- What an escape means is what is made of it. -/
theorem Means.afterBackslash_eq (means : Means names keeps next body out) :
    afterBackslash names (body ++ next) = some ⟨out, body.length⟩ := by
  cases means with
  | lineFeed => rfl
  | itself h =>
    simp only [List.mem_cons, List.not_mem_nil, or_false] at h
    rcases h with rfl | rfl | rfl
    · rfl
    · rfl
    · rfl
  | control h =>
    simp only [controls, List.mem_cons, List.not_mem_nil, or_false, Prod.mk.injEq] at h
    rcases h with ⟨rfl, rfl⟩ | ⟨rfl, rfl⟩ | ⟨rfl, rfl⟩ | ⟨rfl, rfl⟩ | ⟨rfl, rfl⟩ | ⟨rfl, rfl⟩ |
      ⟨rfl, rfl⟩ <;> rfl
  | octal filled few each most =>
    obtain ⟨d, digits, rfl⟩ := List.exists_cons_of_ne_nil filled
    rw [List.cons_append, afterBackslash_octal (each d List.mem_cons_self), octalEscape]
    rw [← List.cons_append, octalDigits_append few each most]
  | code h size each number =>
    subst size
    rw [List.cons_append, afterBackslash_code h, hexEscape, hexNumber?_append each]
    dsimp only
    rw [CodePoint.ofNat?_eq_some_iff.2 number]
    rfl
  | @named name c filled closed known =>
    show nameEscape names ('\x7b' :: (name ++ ['\x7d'] ++ next)) = _
    rw [List.append_assoc, List.singleton_append, nameEscape_append filled closed, known,
      Option.map_some, List.length_cons, List.length_cons, List.length_append]
    rfl
  | other h kept => exact afterBackslash_other h next

/-- What is at fault behind a backslash is made nothing of. -/
theorem Fault.afterBackslash_eq {cs : List Char} (fault : Fault names keeps cs)
    (kept : ∀ c ∈ cs.head?, keeps c = true) : afterBackslash names cs = none := by
  cases fault with
  | ends => rfl
  | foreign h => exact absurd (kept _ rfl) (by simp [h])
  | short h few => rw [afterBackslash_code h, hexEscape, hexNumber?_short few]
  | outside h size each outside =>
    subst size
    rw [afterBackslash_code h, hexEscape, hexNumber?_append each]
    dsimp only
    rw [CodePoint.ofNat?_eq_none_iff.2 outside]
    rfl
  | @nameless rest unknown =>
    show nameEscape names rest = none
    by_contra named
    obtain ⟨d, read⟩ := Option.ne_none_iff_exists'.1 named
    obtain ⟨name, next, c, filled, closed, known, eq⟩ := exists_name read
    exact unknown name next c filled closed known eq

/-- What stands behind the letter for names is the name of a character in braces, or it is at
fault. -/
theorem named_or_fault (names : CharacterNames) (keeps : Char → Bool) (rest : List Char) :
    (∃ body next out, 'N' :: rest = body ++ next ∧ Means names keeps next body out) ∨
      Fault names keeps ('N' :: rest) := by
  cases read : nameEscape names rest with
  | none =>
    refine .inr (.nameless fun name next c filled closed known eq => ?_)
    rw [eq, nameEscape_append filled closed, known] at read
    cases read
  | some d =>
    obtain ⟨name, next, c, filled, closed, known, rfl⟩ := exists_name read
    exact .inl ⟨_, next, _, by simp, .named filled closed known⟩

/-- What stands behind a letter for numbers is the number of a code point, or it is at fault: it is
too short, or there is no such code point. -/
theorem code_or_fault (names : CharacterNames) (keeps : Char → Bool) {c : Char} {count : Nat}
    (letter : (c, count) ∈ codeLetters) (rest : List Char) :
    (∃ body next out, c :: rest = body ++ next ∧ Means names keeps next body out) ∨
      Fault names keeps (c :: rest) := by
  rcases Nat.lt_or_ge (rest.takeWhile isHexDigit).length count with few | enough
  · exact .inr (.short letter few)
  · obtain ⟨digits, next, values, rfl, size, each⟩ := exists_digits enough
    rcases Nat.lt_or_ge (ofDigits 16 values) 0x110000 with inside | outside
    · obtain ⟨p, found⟩ := CodePoint.exists_ofNat? inside
      have number := CodePoint.ofNat?_eq_some_iff.1 found
      exact .inl ⟨c :: digits, next, _, rfl, .code letter size each number⟩
    · exact .inr (.outside letter size each outside)

/-- What stands behind a backslash starts with something that has a meaning, or it is at fault. -/
theorem means_or_fault (names : CharacterNames) (keeps : Char → Bool) (cs : List Char) :
    (∃ body next out, cs = body ++ next ∧ Means names keeps next body out) ∨
      Fault names keeps cs := by
  cases cs with
  | nil => exact .inr .ends
  | cons c rest =>
    by_cases meaning : hasMeaning c = true
    -- one case for each kind of escape that the first character can start
    · rcases hasMeaning_iff.1 meaning with octal | mark | ⟨d, control⟩ | ⟨count, letter⟩
      · obtain ⟨digits, next, split, filled, few, each, most⟩ := exists_octalDigits octal rest
        exact .inl ⟨digits, next, _, split, .octal filled few each most⟩
      · simp only [List.mem_cons, List.not_mem_nil, or_false] at mark
        rcases mark with rfl | rfl | rfl | rfl | rfl
        · exact .inl ⟨_, rest, _, rfl, .lineFeed⟩
        · exact .inl ⟨['\\'], rest, _, rfl, .itself (by simp)⟩
        · exact .inl ⟨['\''], rest, _, rfl, .itself (by simp)⟩
        · exact .inl ⟨['"'], rest, _, rfl, .itself (by simp)⟩
        · exact named_or_fault names keeps rest
      · exact .inl ⟨[c], rest, _, rfl, .control control⟩
      · exact code_or_fault names keeps letter rest
    · rw [Bool.not_eq_true] at meaning
      cases kept : keeps c with
      | true => exact .inl ⟨[c], rest, _, rfl, .other meaning kept⟩
      | false => exact .inr (.foreign kept)

end Escapes

/-! ## A whole text

What a decoder must do is stated as laws, one for each way in which a text may go on. Whoever keeps
the laws reads texts as `Decodes` does, so the two decoders are compared with it once each. -/

section Texts

variable {names : CharacterNames} {keeps : Char → Bool} {cs : List Char} {out : Text}

/-- A text can be read, or there is a fault behind a backslash up to which it can be read. -/
theorem decodes_or_fault (names : CharacterNames) (keeps : Char → Bool) (cs : List Char) :
    (∃ out, Decodes names keeps cs out) ∨
      ∃ front behind before, cs = front ++ '\\' :: behind ∧ Decodes names keeps front before ∧
        Fault names keeps behind := by
  induction size : cs.length using Nat.strong_induction_on generalizing cs with
  | _ n ih =>
    cases cs with
    | nil => exact .inl ⟨[], .nil⟩
    | cons c cs =>
      by_cases plain : c = '\\'
      · subst plain
        rcases means_or_fault names keeps cs with ⟨body, next, here, rfl, means⟩ | fault
        · have shorter : next.length < n := by
            rw [List.length_cons, List.length_append] at size
            omega
          rcases ih _ shorter next rfl with ⟨out, rest⟩ | ⟨front, behind, before, rfl, rest, fault⟩
          · exact .inl ⟨_, .escape means rest⟩
          · refine .inr ⟨_, behind, _, ?_, .escape (means.before ?_) rest, fault⟩
            · simp
            · cases front <;> simp
        · exact .inr ⟨[], cs, [], rfl, .nil, fault⟩
      · have shorter : cs.length < n := by
          rw [List.length_cons] at size
          omega
        rcases ih _ shorter cs rfl with ⟨out, rest⟩ | ⟨front, behind, before, rfl, rest, fault⟩
        · exact .inl ⟨_, .char plain rest⟩
        · exact .inr ⟨c :: front, behind, _, rfl, .char plain rest, fault⟩

/-- A decoder that takes a text as the rule does, one character or one escape after the other. -/
structure Follows (names : CharacterNames) (keeps : Char → Bool)
    (f : List Char → Option Text) : Prop where
  nil : f [] = some []
  char {c : Char} (plain : c ≠ '\\') (cs : List Char) : f (c :: cs) = (f cs).map (.char c :: ·)
  escape {body next : List Char} {here : Text} (means : Means names keeps next body here) :
    f ('\\' :: (body ++ next)) = (f next).map (here ++ ·)
  fault {behind : List Char} (fault : Fault names keeps behind) : f ('\\' :: behind) = none

namespace Follows

variable {f : List Char → Option Text}

/-- What can be read is decoded on its own, if no digit follows it. -/
theorem append {rest : List Char} (follows : Follows names keeps f)
    (reads : Decodes names keeps cs out)
    (ends : ∀ d ∈ rest.head?, isOctalDigit d = false) :
    f (cs ++ rest) = (f rest).map (out ++ ·) := by
  induction reads with
  | nil => simp
  | char plain _ ih =>
    rw [List.cons_append, follows.char plain, ih, Option.map_map]
    rfl
  | escape means _ ih =>
    -- The last escape of the text would take a digit behind it for its own.
    rw [List.cons_append, List.append_assoc, follows.escape (means.append ends), ih,
      Option.map_map]
    simp [Function.comp_def]

/-- A text that can be read is decoded to what it says. -/
theorem eq_some (follows : Follows names keeps f) (reads : Decodes names keeps cs out) :
    f cs = some out := by
  have alone : f (cs ++ []) = _ := follows.append reads (by simp)
  simpa [follows.nil] using alone

/-- A decoder refuses a text that it comes to a fault of. -/
theorem eq_none {front behind : List Char} {before : Text} (follows : Follows names keeps f)
    (reads : Decodes names keeps front before) (fault : Fault names keeps behind) :
    f (front ++ '\\' :: behind) = none := by
  rw [follows.append reads (by simp [isOctalDigit]), follows.fault fault]
  rfl

/-- A text is decoded to what it says. -/
theorem eq_some_iff (follows : Follows names keeps f) :
    f cs = some out ↔ Decodes names keeps cs out := by
  constructor
  · intro h
    rcases decodes_or_fault names keeps cs with
      ⟨out', reads⟩ | ⟨front, behind, before, rfl, reads, fault⟩
    · rw [follows.eq_some reads] at h
      cases h
      exact reads
    · rw [follows.eq_none reads fault] at h
      cases h
  · exact follows.eq_some

/-- A text is refused if there is a fault behind a backslash up to which it can be read. -/
theorem eq_none_iff (follows : Follows names keeps f) : f cs = none ↔
    ∃ front behind before, cs = front ++ '\\' :: behind ∧ Decodes names keeps front before ∧
      Fault names keeps behind := by
  constructor
  · intro h
    rcases decodes_or_fault names keeps cs with ⟨out, reads⟩ | fault
    · rw [follows.eq_some reads] at h
      cases h
    · exact fault
  · rintro ⟨front, behind, before, rfl, reads, fault⟩
    exact follows.eq_none reads fault

end Follows

/-- Within a run, every character keeps its backslash. -/
theorem follows_decodeRun : Follows names (fun _ => true) (decodeRun names) where
  nil := decodeRun.eq_1 names
  char plain cs := by rw [decodeRun, if_neg plain]
  escape means := by
    rw [decodeRun, if_pos rfl, means.afterBackslash_eq]
    dsimp only
    rw [List.drop_left]
  fault fault := by rw [decodeRun, if_pos rfl, fault.afterBackslash_eq fun _ _ => rfl]

/-- Decoded as one run, a text gives what it says if all characters keep their backslash. -/
theorem decodeRun_eq_some_iff :
    decodeRun names cs = some out ↔ Decodes names (fun _ => true) cs out :=
  follows_decodeRun.eq_some_iff

end Texts

/-! ## Stretches

A text is cut into stretches of run characters and of others. Characters in front of a text go into
its first stretch or make a new one, and in either case they are decoded before the rest. -/

/-- A character goes into the stretch of its kind behind it. -/
theorem stretches_cons {c : Char} {cs q : List Char} {more : List (Bool × List Char)}
    (h : stretches cs = (isRunChar c, q) :: more) :
    stretches (c :: cs) = (isRunChar c, c :: q) :: more := by
  rw [stretches, h]
  exact if_pos rfl

/-- Characters of one kind go into the stretch behind them, or make one of their own. -/
theorem stretches_append {kind : Bool} {p : List Char} (ne : p ≠ [])
    (same : ∀ c ∈ p, isRunChar c = kind) (cs : List Char) :
    (∃ q more, stretches cs = (kind, q) :: more ∧
        stretches (p ++ cs) = (kind, p ++ q) :: more) ∨
      stretches (p ++ cs) = (kind, p) :: stretches cs := by
  induction p with
  | nil => exact absurd rfl ne
  | cons c p ih =>
    obtain ⟨rfl, rest⟩ := List.forall_mem_cons.1 same
    cases p with
    | nil =>
      cases eq : stretches cs with
      | nil => exact .inr (by simp [stretches, eq])
      | cons head more =>
        obtain ⟨kind, q⟩ := head
        by_cases same : kind = isRunChar c
        · subst same
          exact .inl ⟨q, more, rfl, stretches_cons eq⟩
        · exact .inr (by simp [stretches, eq, same])
    | cons d p =>
      rcases ih (by simp) rest with ⟨q, more, eq, eq'⟩ | eq
      · exact .inl ⟨q, more, eq, stretches_cons eq'⟩
      · exact .inr (stretches_cons eq)

/-- What is decoded to some characters in front of every stretch, is so in front of every text. -/
theorem decode_append {names : CharacterNames} {kind : Bool} {p : List Char} {x : Text}
    (ne : p ≠ []) (same : ∀ c ∈ p, isRunChar c = kind)
    (step : ∀ q, decodeStretch names (kind, p ++ q) = (decodeStretch names (kind, q)).map (x ++ ·))
    (cs : List Char) : decode (p ++ cs) names = (decode cs names).map (x ++ ·) := by
  have alone : decodeStretch names (kind, p) = some x := by
    have empty : decodeStretch names (kind, []) = some [] := by
      cases kind
      · rfl
      · exact decodeRun.eq_1 names
    rw [← List.append_nil p, step, empty, Option.map_some, List.append_nil]
  unfold decode
  rcases stretches_append ne same cs with ⟨q, more, eq, eq'⟩ | eq
  · rw [eq, eq', List.mapM_cons, List.mapM_cons, step]
    cases decodeStretch names (kind, q) <;> cases List.mapM (decodeStretch names) more <;> simp
  · rw [eq, List.mapM_cons, alone]
    cases List.mapM (decodeStretch names) (stretches cs) <;> simp

/-- A character other than a backslash stands for itself. -/
theorem decode_char {names : CharacterNames} {c : Char} (plain : c ≠ '\\') (cs : List Char) :
    decode (c :: cs) names = (decode cs names).map (.char c :: ·) := by
  refine @decode_append names (isRunChar c) [c] [.char c] (by simp) (by simp) (fun q => ?_) cs
  cases isRunChar c with
  | false => rfl
  | true =>
    show decodeRun names (c :: q) = (decodeRun names q).map (.char c :: ·)
    rw [decodeRun, if_neg plain]

/-- Text without backslashes stands for itself. -/
theorem decode_plain {names : CharacterNames} {text : List Char} (plain : ∀ c ∈ text, c ≠ '\\') :
    decode text names = some (Text.ofChars text) := by
  induction text with
  | nil => rfl
  | cons c text ih =>
    obtain ⟨here, others⟩ := List.forall_mem_cons.1 plain
    rw [decode_char here, ih others]
    rfl

/-! ## Runs

That cutting into runs keeps the rule rests on escapes being made of run characters only
(`Means.inRun`): an escape never reaches over the end of its run. Names are spelled in ASCII
(`CharacterNames.spelled`), so this holds of them as well. -/

section Runs

variable {names : CharacterNames} {run rest body next : List Char} {out : Text}

theorem isRunChar_of_between {c lo hi : Char} (lower : lo ≤ c) (upper : c ≤ hi)
    (filled : 0 < lo.toNat) (ascii : hi.toNat < 128) : isRunChar c = true := by
  have lower : lo.toNat ≤ c.toNat := lower
  have upper : c.toNat ≤ hi.toNat := upper
  have other : c ≠ '\x00' := by
    rintro rfl
    exact absurd lower (Nat.not_le.2 filled)
  simp only [isRunChar, isAscii, Bool.and_eq_true, decide_eq_true_eq, bne_iff_ne]
  exact ⟨by omega, other⟩

theorem isRunChar_hexDigit {c : Char} (h : isHexDigit c = true) : isRunChar c = true := by
  unfold isHexDigit hexDigit? at h
  split at h
  · rename_i range
    exact isRunChar_of_between range.1 range.2 (by decide) (by decide)
  split at h
  · rename_i range
    exact isRunChar_of_between range.1 range.2 (by decide) (by decide)
  split at h
  · rename_i range
    exact isRunChar_of_between range.1 range.2 (by decide) (by decide)
  · cases h

/-- The digits at the start of a text are at the start of its run. -/
theorem takeWhile_hexDigit (cs : List Char) :
    (cs.takeWhile isRunChar).takeWhile isHexDigit = cs.takeWhile isHexDigit := by
  rw [List.takeWhile_takeWhile]
  congr 1
  funext c
  have run := @isRunChar_hexDigit c
  cases digit : isHexDigit c with
  | true => simp [run digit]
  | false => simp

/-- Octal digits are run characters. -/
theorem isRunChar_octalDigit {c : Char} (h : isOctalDigit c = true) : isRunChar c = true := by
  simp only [isOctalDigit, Bool.and_eq_true, decide_eq_true_eq] at h
  exact isRunChar_of_between h.1 h.2 (by decide) (by decide)

theorem isRunChar_codeLetter {letter : Char} {count : Nat}
    (h : (letter, count) ∈ codeLetters) : isRunChar letter = true := by
  simp only [codeLetters, List.mem_cons, List.not_mem_nil, or_false, Prod.mk.injEq] at h
  rcases h with ⟨rfl, -⟩ | ⟨rfl, -⟩ | ⟨rfl, -⟩
  · rfl
  · rfl
  · rfl

/-- What stands behind a backslash and means something is part of its run. -/
theorem Means.inRun (means : Means names isRunChar next body out) :
    ∀ c ∈ body, isRunChar c = true := by
  cases means with
  | lineFeed => exact List.forall_mem_singleton.2 rfl
  | itself h =>
    have each : ∀ c ∈ ['\\', '\'', '"'], isRunChar c = true := by simp [isRunChar, isAscii]
    exact List.forall_mem_singleton.2 (each _ h)
  | control h =>
    have each : ∀ p ∈ controls, isRunChar p.1 = true := by decide
    exact List.forall_mem_singleton.2 (each _ h)
  | octal filled few each most => exact fun d hd => isRunChar_octalDigit (each d hd)
  | code h size each number =>
    refine List.forall_mem_cons.2 ⟨isRunChar_codeLetter h, fun d hd => ?_⟩
    exact isRunChar_hexDigit (exists_values_iff.1 ⟨_, each⟩ d hd)
  | named filled closed known =>
    refine List.forall_mem_cons.2 ⟨rfl, List.forall_mem_cons.2 ⟨rfl, ?_⟩⟩
    exact List.forall_mem_append.2 ⟨fun d hd => (names.spelled _ _ known d hd).1,
      List.forall_mem_singleton.2 rfl⟩
  | other h kept => exact List.forall_mem_singleton.2 kept

/-- A run is decoded on its own if it ends where the characters of runs do. -/
theorem decode_run (each : ∀ c ∈ run, isRunChar c = true)
    (ends : ∀ c ∈ rest.head?, isRunChar c = false) :
    decode (run ++ rest) names =
      (decodeRun names run).bind fun a => (decode rest names).map (a ++ ·) := by
  cases run with
  | nil => simp [decodeRun.eq_1]
  | cons c run =>
    rcases stretches_append (List.cons_ne_nil c run) each rest with ⟨q, more, eq, -⟩ | eq
    · -- The rest starts no stretch of run characters.
      cases rest with
      | nil => cases eq
      | cons d rest =>
        have kind : ∃ q' more', stretches (d :: rest) = (isRunChar d, q') :: more' := by
          unfold stretches
          split
          · split
            · rename_i same
              exact ⟨_, _, by rw [same]⟩
            · exact ⟨_, _, rfl⟩
          · exact ⟨_, _, rfl⟩
        obtain ⟨q', more', eq'⟩ := kind
        rw [ends d rfl, eq] at eq'
        cases eq'
    · unfold decode
      rw [eq, List.mapM_cons]
      show ((decodeRun names (c :: run)).bind _).map _ = _
      cases decodeRun names (c :: run) with
      | none => rfl
      | some a => cases List.mapM (decodeStretch names) (stretches rest) <;> simp

/-- A run ends where its characters do. -/
theorem head?_behind_run (cs : List Char) :
    ∀ c ∈ (cs.dropWhile isRunChar).head?, isRunChar c = false := by
  intro c hc
  have ends := List.head?_dropWhile_not isRunChar cs
  rwa [Option.mem_def.1 hc] at ends

/-- An escape is decoded on its own. -/
theorem Means.decode_append (means : Means names isRunChar next body out) :
    decode ('\\' :: (body ++ next)) names = (decode next names).map (out ++ ·) := by
  have each : ∀ c ∈ next.takeWhile isRunChar, isRunChar c = true :=
    fun c hc => List.mem_takeWhile_imp hc
  have ends := head?_behind_run next
  -- A digit behind the escape is in the run, so the escape means the same there.
  have inside : Means names isRunChar (next.takeWhile isRunChar) body out := by
    refine means.before fun d hd _ => ?_
    cases next with
    | nil => cases hd
    | cons e next =>
      rw [List.takeWhile_cons] at hd
      split at hd
      · exact hd
      · cases hd
  have whole : '\\' :: (body ++ next) =
      '\\' :: (body ++ next.takeWhile isRunChar) ++ next.dropWhile isRunChar := by
    rw [List.cons_append, List.append_assoc, List.takeWhile_append_dropWhile]
  have run : ∀ c ∈ '\\' :: (body ++ next.takeWhile isRunChar), isRunChar c = true := by
    rw [List.forall_mem_cons, List.forall_mem_append]
    exact ⟨by decide, means.inRun, each⟩
  have parts : decode next names = (decodeRun names (next.takeWhile isRunChar)).bind fun a =>
      (decode (next.dropWhile isRunChar) names).map (a ++ ·) := by
    rw [← decode_run each ends, List.takeWhile_append_dropWhile]
  rw [whole, decode_run run ends, decodeRun, if_pos rfl, inside.afterBackslash_eq, parts]
  dsimp only
  rw [List.drop_left]
  cases decodeRun names (next.takeWhile isRunChar) with
  | none => rfl
  | some a => simp [Option.map_map, Function.comp_def]

/-- A fault is a fault of its run. -/
theorem Fault.decode_eq_none {behind : List Char} (fault : Fault names isRunChar behind) :
    decode ('\\' :: behind) names = none := by
  have run : ∀ c ∈ '\\' :: behind.takeWhile isRunChar, isRunChar c = true :=
    List.forall_mem_cons.2 ⟨by decide, fun c hc => List.mem_takeWhile_imp hc⟩
  have refused : afterBackslash names (behind.takeWhile isRunChar) = none := by
    refine @Fault.afterBackslash_eq names isRunChar _ ?_ fun c hc => ?_
    · cases fault with
      | ends => exact .ends
      | foreign h =>
        rw [List.takeWhile_cons_of_neg (by simp [h])]
        exact .ends
      | short h few =>
        rw [List.takeWhile_cons_of_pos (isRunChar_codeLetter h)]
        refine .short h ?_
        rwa [takeWhile_hexDigit]
      | outside h size each outside =>
        rw [List.takeWhile_cons_of_pos (isRunChar_codeLetter h), List.takeWhile_append_of_pos]
        · exact .outside h size each outside
        · exact fun d hd => isRunChar_hexDigit (exists_values_iff.1 ⟨_, each⟩ d hd)
      | @nameless rest unknown =>
        rw [List.takeWhile_cons_of_pos (by decide)]
        refine .nameless fun name next c filled closed known eq => ?_
        refine unknown name (next ++ rest.dropWhile isRunChar) c filled closed known ?_
        have whole : rest.takeWhile isRunChar ++ rest.dropWhile isRunChar = rest :=
          List.takeWhile_append_dropWhile
        rw [eq] at whole
        simpa using whole.symm
    · exact List.mem_takeWhile_imp (List.mem_of_mem_head? hc)
  have split := @decode_run names _ _ run (head?_behind_run behind)
  rw [List.cons_append, List.takeWhile_append_dropWhile] at split
  rw [split, decodeRun, if_pos rfl, refused]
  rfl

/-- A character keeps its backslash if it is one of the same run. -/
theorem follows_decode : Follows names isRunChar fun cs => decode cs names where
  nil := rfl
  char := decode_char
  escape := Means.decode_append
  fault := Fault.decode_eq_none

end Runs

/-! ## Decoding -/

variable {names : CharacterNames} {cs : List Char} {out : Text}

/-- A text is decoded to what it says, read from the left as one. -/
theorem decode_eq_some_iff : decode cs names = some out ↔ Decodes names isRunChar cs out :=
  follows_decode.eq_some_iff

/-- A text is refused if a backslash stands in front of a fault, and all before it can be read. -/
theorem decode_eq_none_iff : decode cs names = none ↔
    ∃ front behind before, cs = front ++ '\\' :: behind ∧ Decodes names isRunChar front before ∧
      Fault names isRunChar behind :=
  follows_decode.eq_none_iff

/-- More characters may keep their backslash. -/
theorem Decodes.uncut (reads : Decodes names isRunChar cs out) :
    Decodes names (fun _ => true) cs out := by
  induction reads with
  | nil => exact .nil
  | char plain _ ih => exact .char plain ih
  | escape means _ ih =>
    rcases means.kept_or fun _ => true with means | ⟨c, -, lost⟩
    · exact .escape means ih
    · cases lost

/-- Where fewer characters keep their backslash, a text says the same, or it comes to a character
that does not. -/
theorem Decodes.cut (reads : Decodes names (fun _ => true) cs out) :
    Decodes names isRunChar cs out ∨
    ∃ front c behind before, cs = front ++ '\\' :: c :: behind ∧
      Decodes names isRunChar front before ∧
      isRunChar c = false := by
  induction reads with
  | nil => exact .inl .nil
  | @char c cs out plain _ ih =>
    rcases ih with reads | ⟨front, d, behind, before, rfl, reads, foreign⟩
    · exact .inl (.char plain reads)
    · exact .inr ⟨c :: front, d, behind, _, rfl, .char plain reads, foreign⟩
  | @escape body next here out means _ ih =>
    rcases means.kept_or isRunChar with means | ⟨c, rfl, foreign⟩
    · rcases ih with reads | ⟨front, d, behind, before, rfl, reads, foreign⟩
      · exact .inl (.escape means reads)
      · refine .inr ⟨_, d, behind, _, ?_, .escape (means.before ?_) reads, foreign⟩
        · simp
        · cases front <;> simp
    · exact .inr ⟨[], c, next, [], rfl, .nil, foreign⟩

/-- Cutting a text into runs makes a difference only where a backslash ends a run: up to there the
text is decoded as if it were one run, and there it is refused. -/
theorem decode_eq_some_iff_uncut : decode cs names = some out ↔ decodeRun names cs = some out ∧
    ∀ front c behind before, cs = front ++ '\\' :: c :: behind →
      Decodes names isRunChar front before →
      isRunChar c = true := by
  constructor
  · intro h
    refine ⟨decodeRun_eq_some_iff.2 (decode_eq_some_iff.1 h).uncut, ?_⟩
    intro front c behind before split reads
    by_contra foreign
    rw [Bool.not_eq_true] at foreign
    rw [decode_eq_none_iff.2 ⟨front, c :: behind, before, split, reads, .foreign foreign⟩] at h
    cases h
  · rintro ⟨h, inside⟩
    rcases (decodeRun_eq_some_iff.1 h).cut with
      reads | ⟨front, c, behind, before, split, reads, foreign⟩
    · exact decode_eq_some_iff.2 reads
    · rw [inside front c behind before split reads] at foreign
      cases foreign

/-- A name in braces gives the character that has it, and what is behind is decoded on its own. -/
theorem decode_named {name : List Char} {c : Char} (filled : name ≠ []) (closed : '\x7d' ∉ name)
    (known : names.find name = some c) (next : List Char) :
    decode ('\\' :: 'N' :: '\x7b' :: (name ++ '\x7d' :: next)) names =
      (decode next names).map (.char c :: ·) := by
  have means : Means names isRunChar next ('N' :: '\x7b' :: (name ++ ['\x7d'])) [.char c] :=
    .named filled closed known
  have alone := means.decode_append
  rwa [List.cons_append, List.cons_append, List.append_assoc, List.singleton_append] at alone

/-- Two surrogates are as different as two characters. -/
example : decode "\\ud800".toList .none ≠ decode "\\ud801".toList .none := by decide +kernel

/-- A backslash ends the run in front of the accent, so it is not kept. -/
example : decode "\\é".toList .none = none := by decide +kernel

end Wdl.Escape
