/-!
# Wdl.Text.CodePoint -- decoded texts

A source text is a list of characters. What is decoded from it can hold more: a numeric escape may
give a surrogate, a code point that is no character, and surrogates are as different from each other
as characters are. So decoded texts are lists of code points.

* `CodePoint` is a character or a surrogate, `CodePoint.ofNat?` the code point of a number;
* `Text` is a decoded text, `Text.ofChars` and `Text.ofString` the text of characters;
* `Text.Plain` says that a text has no surrogates; then it is the text of its characters
  (`Text.Plain.ofChars_chars`);
* `Text.shown` is a text for readers that know characters only: a surrogate shows as the
  replacement character. Only what is printed goes through it.
-/

namespace Wdl

/-! ## Code points -/

/-- A code point: a character, or one of the surrogates U+D800 to U+DFFF, counted from the first. -/
inductive CodePoint where
  | char (c : Char)
  | surrogate (n : Fin 0x800)
deriving DecidableEq, Repr

namespace CodePoint

/-- The code point of a number; there are no more than `0x110000`. -/
def ofNat? (n : Nat) : Option CodePoint :=
  if h : 0xD800 ≤ n ∧ n < 0xE000 then some (.surrogate ⟨n - 0xD800, by omega⟩)
  else if n < 0x110000 then some (.char (Char.ofNat n))
  else none

/-- The number of a code point. -/
def toNat : CodePoint → Nat
  | .char c => c.toNat
  | .surrogate n => 0xD800 + n

/-- The character that shows a code point. -/
def shown : CodePoint → Char
  | .char c => c
  | .surrogate _ => '\uFFFD'

@[simp] theorem shown_char (c : Char) : (char c).shown = c := rfl

/-- Only the replacement character is shown for anything but itself. -/
theorem eq_char_of_shown {p : CodePoint} {c : Char} (other : c ≠ '\uFFFD') (eq : p.shown = c) :
    p = .char c := by
  cases p with
  | char d => rw [← eq, shown_char]
  | surrogate n => exact absurd eq.symm other

theorem exists_ofNat? {n : Nat} (inside : n < 0x110000) : ∃ c, ofNat? n = some c := by
  by_cases range : 0xD800 ≤ n ∧ n < 0xE000
  · exact ⟨_, dif_pos range⟩
  · exact ⟨.char (Char.ofNat n), by rw [ofNat?, dif_neg range, if_pos inside]⟩

theorem ofNat?_eq_none_iff {n : Nat} : ofNat? n = none ↔ 0x110000 ≤ n := by
  constructor
  · intro absent
    refine Nat.le_of_not_lt fun inside => ?_
    obtain ⟨c, found⟩ := exists_ofNat? inside
    rw [absent] at found
    cases found
  · intro outside
    rw [ofNat?, dif_neg (by omega), if_neg (Nat.not_lt.2 outside)]

/-- The code points are as different as their numbers. -/
theorem ofNat?_eq_some_iff {n : Nat} {p : CodePoint} : ofNat? n = some p ↔ p.toNat = n := by
  constructor
  · intro found
    by_cases range : 0xD800 ≤ n ∧ n < 0xE000
    · rw [ofNat?, dif_pos range, Option.some.injEq] at found
      subst found
      show 0xD800 + (n - 0xD800) = n
      omega
    · by_cases inside : n < 0x110000
      · rw [ofNat?, dif_neg range, if_pos inside, Option.some.injEq] at found
        subst found
        have valid : n.isValidChar := by
          rcases Nat.lt_or_ge n 0xD800 with low | high
          · exact .inl low
          · exact .inr ⟨by omega, inside⟩
        show (Char.ofNat n).toNat = n
        rw [Char.ofNat, dif_pos valid]
        rfl
      · rw [ofNat?, dif_neg range, if_neg inside] at found
        cases found
  · rintro rfl
    cases p with
    | char c =>
      show ofNat? c.toNat = _
      have other : ¬(0xD800 ≤ c.toNat ∧ c.toNat < 0xE000) := by
        rcases c.valid with low | high
        · exact fun range => absurd range.1 (Nat.not_le.2 low)
        · exact fun range => absurd high.1 (Nat.not_lt.2 (Nat.le_of_lt_succ range.2))
      have inside : c.toNat < 0x110000 := by
        rcases c.valid with low | high
        · exact Nat.lt_trans low (by omega)
        · exact high.2
      rw [ofNat?, dif_neg other, if_pos inside, Char.ofNat_toNat]
    | surrogate i =>
      have range : 0xD800 ≤ 0xD800 + i.val ∧ 0xD800 + i.val < 0xE000 := ⟨by omega, by omega⟩
      show ofNat? (0xD800 + i.val) = _
      rw [ofNat?, dif_pos range, Option.some.injEq, CodePoint.surrogate.injEq, Fin.ext_iff]
      exact Nat.add_sub_cancel_left ..

end CodePoint

/-! ## Texts -/

/-- A decoded text. -/
abbrev Text := List CodePoint

namespace Text

/-- The text of some characters. -/
def ofChars (cs : List Char) : Text := cs.map .char

/-- The text of a string. -/
def ofString (s : String) : Text := ofChars s.toList

/-- The characters that show a text. -/
def chars (t : Text) : List Char := t.map CodePoint.shown

/-- The string that shows a text. -/
def shown (t : Text) : String := String.ofList t.chars

/-- Texts behind each other, with a string between every two. -/
def join (sep : String) (ts : List Text) : Text := (ofString sep).intercalate ts

/-- There are no surrogates in a text. -/
def Plain (t : Text) : Prop := ∀ i, .surrogate i ∉ t

variable {cs : List Char} {s t : Text}

@[simp] theorem ofChars_nil : ofChars [] = [] := rfl

@[simp] theorem ofChars_cons (c : Char) (cs : List Char) :
    ofChars (c :: cs) = .char c :: ofChars cs :=
  rfl

@[simp] theorem ofChars_append (cs ds : List Char) :
    ofChars (cs ++ ds) = ofChars cs ++ ofChars ds := List.map_append

@[simp] theorem chars_ofChars (cs : List Char) : (ofChars cs).chars = cs := by
  rw [chars, ofChars, List.map_map]
  exact List.map_id cs

@[simp] theorem chars_nil : chars [] = [] := rfl

@[simp] theorem chars_cons (p : CodePoint) (t : Text) : chars (p :: t) = p.shown :: chars t := rfl

@[simp] theorem chars_append (s t : Text) : (s ++ t).chars = s.chars ++ t.chars := List.map_append

@[simp] theorem chars_ofString (s : String) : (ofString s).chars = s.toList := chars_ofChars _

@[simp] theorem toList_shown (t : Text) : t.shown.toList = t.chars := String.toList_ofList

@[simp] theorem shown_ofString (s : String) : (ofString s).shown = s := by
  rw [shown, chars_ofString, String.ofList_toList]

theorem chars_join (sep : String) (ts : List Text) :
    (join sep ts).chars = sep.toList.intercalate (ts.map chars) := by
  unfold join
  induction ts with
  | nil => rfl
  | cons t ts ih =>
    cases ts with
    | nil => simp
    | cons s ts =>
      rw [List.intercalate_cons_cons, chars_append, chars_append, ih, chars_ofString, List.map_cons,
        List.map_cons, List.map_cons, List.intercalate_cons_cons]

@[simp] theorem ofChars_inj {cs ds : List Char} : ofChars cs = ofChars ds ↔ cs = ds := by
  constructor
  · intro eq
    rw [← chars_ofChars cs, eq, chars_ofChars]
  · exact congrArg ofChars

@[simp] theorem ofString_inj {s t : String} : ofString s = ofString t ↔ s = t := by
  constructor
  · intro eq
    rw [← shown_ofString s, eq, shown_ofString]
  · exact congrArg ofString

/-! ### Plain texts -/

theorem plain_ofChars (cs : List Char) : (ofChars cs).Plain := by
  intro i mem
  obtain ⟨c, -, eq⟩ := List.mem_map.1 mem
  cases eq

theorem plain_ofString (s : String) : (ofString s).Plain := plain_ofChars _

@[simp] theorem plain_nil : Plain [] := fun _ mem => nomatch mem

@[simp] theorem plain_append : (s ++ t).Plain ↔ s.Plain ∧ t.Plain := by
  simp only [Plain, List.mem_append, not_or, forall_and]

theorem plain_cons {p : CodePoint} : Plain (p :: t) ↔ Plain [p] ∧ t.Plain := by
  rw [← plain_append, List.singleton_append]

@[simp] theorem plain_char {c : Char} : Plain (.char c :: t) ↔ t.Plain :=
  plain_cons.trans (and_iff_right (plain_ofChars [c]))

theorem plain_join (sep : String) {ts : List Text} (each : ∀ t ∈ ts, t.Plain) :
    (join sep ts).Plain := by
  unfold join
  induction ts with
  | nil => exact plain_nil
  | cons t ts ih =>
    have rest := ih fun s mem => each s (List.mem_cons_of_mem t mem)
    have first := each t List.mem_cons_self
    cases ts with
    | nil => rwa [List.intercalate_singleton]
    | cons s ts =>
      rw [List.intercalate_cons_cons, plain_append, plain_append]
      exact ⟨⟨first, plain_ofString sep⟩, rest⟩

/-- A text without surrogates is shown as it is. -/
theorem Plain.ofChars_chars (plain : t.Plain) : ofChars t.chars = t := by
  induction t with
  | nil => rfl
  | cons p t ih =>
    have rest : Plain t := fun i mem => plain i (List.mem_cons_of_mem _ mem)
    cases p with
    | char c => rw [chars_cons, ofChars_cons, ih rest]; rfl
    | surrogate i => exact absurd List.mem_cons_self (plain i)

theorem Plain.ofString_shown (plain : t.Plain) : ofString t.shown = t := by
  rw [ofString, toList_shown, plain.ofChars_chars]

end Text

end Wdl
