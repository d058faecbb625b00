import Wdl.Build.Expr
import Wdl.Proofs.Contexts
import Wdl.Proofs.Escapes
import Wdl.Render.Expr

/-!
# Wdl.Proofs.Literals -- literal text that is rendered is read and decoded again

Rendering escapes marks, backslashes, line feeds and tabs (`renderText`). The scanner takes such
text as far as it goes, up to the mark or placeholder behind it, and decoding gives the text that
was rendered. Both need that the text does not open a placeholder itself: rendering puts a backslash
in front of what would, and decoding keeps that backslash.

* `Unopened text` says that no placeholder opens in a text.
* `renderText_induction` has one case for each way in which rendering writes a code point, and every
  result here goes by it.
* `decode_renderText` is about decoding, for any table of names, as no name is written;
  `stringTextLength_renderText` is about the scanner.
* `unopened_of_decode` is the converse: a text in which a placeholder opens does not come back.
-/

namespace Wdl

open Scan

/-! ## Rendered text -/

/-- No placeholder opens in a text. -/
def Unopened (text : List Char) : Prop := ∀ c, isSigil c = true → ¬ [c, '\x7b'] <:+: text

namespace Unopened

variable {c : Char} {text : List Char}

/-- Behind the first character no placeholder opens either. -/
theorem tail (h : Unopened (c :: text)) : Unopened text :=
  fun d sigil inside => h d sigil (List.infix_cons inside)

/-- Nor does one open with the first character. -/
theorem head (h : Unopened (c :: text)) :
    ¬ ((c = '~' ∨ c = '$') ∧ text.head? = some '\x7b') := by
  rintro ⟨sigil, brace⟩
  obtain ⟨more, rfl⟩ := List.head?_eq_some_iff.1 brace
  exact h c (by simpa [isSigil] using sigil) (List.IsPrefix.isInfix ⟨more, rfl⟩)

/-- No placeholder opens where none opens behind the first character, nor with it. -/
theorem cons (h : Unopened text) (first : isSigil c = true → text.head? ≠ some '\x7b') :
    Unopened (c :: text) := by
  intro d sigil inside
  rcases List.infix_cons_iff.1 inside with start | inside
  · obtain ⟨rfl, brace⟩ := List.cons_prefix_cons.1 start
    obtain ⟨more, rfl⟩ := brace
    exact first sigil rfl
  · exact h d sigil inside

end Unopened

/-- Rendering puts no brace in front that is not in the text. -/
theorem head?_renderText {text : Text} (h : (renderText text).chars.head? = some '\x7b') :
    text.head? = some (.char '\x7b') := by
  cases text with
  | nil => cases h
  | cons p text =>
    rw [renderText] at h
    repeat' split at h
    all_goals rw [Text.chars_cons, List.head?_cons, Option.some.injEq] at h
    all_goals first
      | rw [CodePoint.eq_char_of_shown (by decide) h, List.head?_cons]
      | exact absurd h (by decide)

/-- A property of a text and of how its rendering is shown holds if it holds in front of every text
for each way in which rendering writes a code point. -/
theorem renderText_induction {P : Text → List Char → Prop} (nil : P [] [])
    (pair : ∀ e c text raw, (e, c) ∈ [('\\', '\\'), ('"', '"'), ('n', '\n'), ('t', '\t')] →
      P text raw → P (.char c :: text) ('\\' :: e :: raw))
    (opening : ∀ c text raw, isSigil c = true → P (.char '\x7b' :: text) ('\x7b' :: raw) →
      P (.char c :: .char '\x7b' :: text) ('\\' :: c :: '\x7b' :: raw))
    (point : ∀ p text raw, p.shown ≠ '\\' → p.shown ≠ '"' →
      (isSigil p.shown = true → text.head? ≠ some (.char '\x7b')) →
      (isSigil p.shown = true → raw.head? ≠ some '\x7b') → P text raw →
      P (p :: text) (p.shown :: raw))
    (text : Text) : P text (renderText text).chars := by
  induction text with
  | nil => exact nil
  | cons p text rest =>
    -- no surrogate shows as a character that is written with a backslash
    have shown {c : Char} (other : c ≠ '\uFFFD') (eq : p.shown = c) : p = .char c :=
      CodePoint.eq_char_of_shown other eq
    rw [renderText]
    split
    · rename_i eq
      subst eq
      exact pair _ _ _ _ (by simp) rest
    · rename_i backslash
      split
      · rename_i eq
        subst eq
        exact pair _ _ _ _ (by simp) rest
      · rename_i mark
        split
        · rename_i eq
          subst eq
          exact pair _ _ _ _ (by simp) rest
        · split
          · rename_i eq
            subst eq
            exact pair _ _ _ _ (by simp) rest
          · split
            · rename_i opens
              obtain ⟨sigil, brace⟩ := opens
              obtain ⟨text, rfl⟩ := List.head?_eq_some_iff.1 brace
              -- a brace is written as it is
              have written :
                  renderText (.char '\x7b' :: text) = .char '\x7b' :: renderText text := by
                simp [renderText]
              rw [written] at rest ⊢
              rcases sigil with rfl | rfl
              · exact opening _ text _ rfl rest
              · exact opening _ text _ rfl rest
            · rename_i plain
              have unopened : isSigil p.shown = true → text.head? ≠ some (.char '\x7b') := by
                intro sigil brace
                have either : p.shown = '~' ∨ p.shown = '$' := by simpa [isSigil] using sigil
                exact plain ⟨either.imp (shown (by decide)) (shown (by decide)), brace⟩
              exact point _ _ _ (backslash <| shown (by decide) ·) (mark <| shown (by decide) ·)
                unopened (fun sigil brace => unopened sigil (head?_renderText brace)) rest

/-- How the characters that are escaped are decoded. -/
theorem decode_pair {e c : Char}
    (mem : (e, c) ∈ [('\\', '\\'), ('"', '"'), ('n', '\n'), ('t', '\t')]) (cs : List Char)
    (names : CharacterNames) :
    Escape.decode ('\\' :: e :: cs) names = (Escape.decode cs names).map (.char c :: ·) := by
  have means : Escape.Means names Escape.isRunChar cs [e] [.char c] := by
    simp only [List.mem_cons, Prod.mk.injEq, List.not_mem_nil, or_false] at mem
    rcases mem with ⟨rfl, rfl⟩ | ⟨rfl, rfl⟩ | ⟨rfl, rfl⟩ | ⟨rfl, rfl⟩
    · exact .itself (by simp)
    · exact .itself (by simp)
    · exact .control (by simp [Escape.controls])
    · exact .control (by simp [Escape.controls])
  exact means.decode_append

/-- Decoding what is shown of a rendered text gives that text, as it is shown. -/
theorem decode_renderText {text : Text} (unopened : Unopened text.chars) (names : CharacterNames) :
    Escape.decode (renderText text).chars names = some (.ofChars text.chars) := by
  revert unopened
  refine renderText_induction
    (P := fun text raw => Unopened text.chars →
      Escape.decode raw names = some (.ofChars text.chars)) (fun _ => rfl) ?_ ?_ ?_ text
  · intro e c text raw mem ih unopened
    rw [decode_pair mem, ih unopened.tail]
    rfl
  · intro c text raw sigil _ unopened
    exact absurd ⟨by simpa [isSigil] using sigil, rfl⟩ (Unopened.head unopened)
  · intro p text raw backslash _ _ _ ih unopened
    rw [Escape.decode_char backslash, ih unopened.tail]
    rfl

/-! ## Reading literal text -/

/-- The text goes on with the mark of a string, or with what opens a placeholder. -/
def Stops (rest : List Char) : Prop := ∃ cs, rest = '"' :: cs ∨ rest = '~' :: '\x7b' :: cs

/-- A character that is neither escaped, nor a mark, nor a sigil is read alone. -/
theorem stringTextLength_plain {c : Char} (q : Quote) (backslash : c ≠ '\\') (mark : c ≠ q.char)
    (sigil : isSigil c = false) (cs : List Char) :
    stringTextLength q (c :: cs) = stringTextLength q cs + 1 := by
  cases cs with
  | nil =>
    rw [stringTextLength_single]
    simp [backslash, mark, sigil, stringTextLength]
  | cons d cs =>
    rw [stringTextLength_cons₂]
    simp [backslash, mark, sigil]

/-- What is escaped is read together with its backslash. -/
theorem stringTextLength_pair {e c : Char}
    (mem : (e, c) ∈ [('\\', '\\'), ('"', '"'), ('n', '\n'), ('t', '\t')]) (cs : List Char) :
    stringTextLength .double ('\\' :: e :: cs) = stringTextLength .double cs + 2 := by
  simp only [List.mem_cons, List.not_mem_nil, or_false, Prod.mk.injEq] at mem
  rw [stringTextLength_cons₂, if_pos rfl]
  rcases mem with ⟨rfl, -⟩ | ⟨rfl, -⟩ | ⟨rfl, -⟩ | ⟨rfl, -⟩
  · rw [if_pos (.inl rfl)]
  · rw [if_pos (.inr rfl)]
  · rw [if_neg (by decide), stringTextLength_plain _ (by decide) (by decide) rfl]
  · rw [if_neg (by decide), stringTextLength_plain _ (by decide) (by decide) rfl]

/-- A character that opens no placeholder, and is not escaped, is read alone. -/
theorem stringTextLength_char {c : Char} {raw rest : List Char} (backslash : c ≠ '\\')
    (mark : c ≠ '"') (brace : isSigil c = true → raw.head? ≠ some '\x7b') (stops : Stops rest) :
    stringTextLength .double (c :: (raw ++ rest)) =
      stringTextLength .double (raw ++ rest) + 1 := by
  -- a sigil is literal text unless a brace follows
  obtain ⟨d, more, eq, other⟩ : ∃ d more, raw ++ rest = d :: more ∧
      (isSigil c = true → d ≠ '\x7b') := by
    cases raw with
    | nil => obtain ⟨cs, rfl | rfl⟩ := stops <;> exact ⟨_, _, rfl, fun _ => by decide⟩
    | cons d raw => exact ⟨d, raw ++ rest, rfl, fun sigil => by simpa using brace sigil⟩
  rw [eq, stringTextLength_cons₂, if_neg backslash, if_neg (by simpa [Quote.char] using mark),
    if_neg fun opens => other opens.1 opens.2]

/-- Rendered text is read up to the mark or placeholder behind it. -/
theorem stringTextLength_renderText {text : Text} {rest : List Char} (plain : Unopened text.chars)
    (stops : Stops rest) :
    stringTextLength .double ((renderText text).chars ++ rest) =
      (renderText text).chars.length := by
  have stop : stringTextLength .double rest = 0 := by
    obtain ⟨cs, rfl | rfl⟩ := stops
    · exact stringTextLength_mark .double cs
    · exact stringTextLength_opening .double rfl cs
  revert plain
  refine renderText_induction (P := fun text raw => Unopened text.chars →
    stringTextLength .double (raw ++ rest) = raw.length) (fun _ => stop) ?_ ?_ ?_ text
  · intro e c text raw mem ih plain
    rw [List.cons_append, List.cons_append, stringTextLength_pair mem, ih plain.tail]
    rfl
  · intro c text raw sigil _ plain
    exact absurd ⟨by simpa [isSigil] using sigil, rfl⟩ (Unopened.head plain)
  · intro p text raw backslash mark _ brace ih plain
    rw [List.cons_append, List.length_cons, stringTextLength_char backslash mark brace stops,
      ih plain.tail]

/-- If what is read of a rendered text is decoded to that text, no placeholder opens in it. -/
theorem unopened_of_decode {text : Text} {rest : List Char} {names : CharacterNames}
    (h : Escape.decode (((renderText text).chars ++ '"' :: rest).take
      (stringTextLength .double ((renderText text).chars ++ '"' :: rest))) names = some text) :
    Unopened text.chars := by
  revert h
  refine renderText_induction (P := fun text raw => Escape.decode ((raw ++ '"' :: rest).take
    (stringTextLength .double (raw ++ '"' :: rest))) names = some text → Unopened text.chars)
    ?_ ?_ ?_ ?_ text
  · intro _ c _ inside
    simp at inside
  · intro e c text raw mem ih read
    rw [List.cons_append, List.cons_append, stringTextLength_pair mem, List.take_succ_cons,
      List.take_succ_cons, decode_pair mem] at read
    obtain ⟨text', tail, eq⟩ := Option.map_eq_some_iff.1 read
    cases eq
    refine (ih tail).cons fun sigil => ?_
    simp only [List.mem_cons, List.not_mem_nil, or_false, Prod.mk.injEq] at mem
    rcases mem with ⟨-, rfl⟩ | ⟨-, rfl⟩ | ⟨-, rfl⟩ | ⟨-, rfl⟩ <;> cases sigil
  · intro c text raw sigil _ read
    -- only the backslash is read, and that stands for nothing alone
    have other : ¬ (c = '\\' ∨ c = Quote.double.char) := by
      rintro (rfl | rfl) <;> cases sigil
    have size : stringTextLength .double ('\\' :: c :: '\x7b' :: raw ++ '"' :: rest) = 1 := by
      rw [List.cons_append, List.cons_append, List.cons_append, stringTextLength_cons₂, if_pos rfl,
        if_neg other, stringTextLength_opening .double sigil]
    have alone : Escape.decode ['\\'] names = none :=
      Escape.decode_eq_none_iff.2 ⟨[], [], [], rfl, .nil, .ends⟩
    rw [size, List.cons_append, List.take_succ_cons, List.take_zero, alone] at read
    cases read
  · intro p text raw backslash mark unopened brace ih read
    have size := stringTextLength_char backslash mark brace ⟨rest, .inl rfl⟩
    rw [List.cons_append, size, List.take_succ_cons, Escape.decode_char backslash] at read
    obtain ⟨text', tail, same⟩ := Option.map_eq_some_iff.1 read
    obtain rfl : text' = text := (List.cons.inj same).2
    refine (ih tail).cons fun sigil first => unopened sigil ?_
    rw [Text.chars, List.head?_map] at first
    obtain ⟨q, head, eq⟩ := Option.map_eq_some_iff.1 first
    rw [head, CodePoint.eq_char_of_shown (by decide) eq]

/-- A text without marks, backslashes and line feeds is read up to the mark behind it. -/
theorem doubleRest?_plain {text : List Char} (plain : ∀ c ∈ text, c ≠ '"' ∧ c ≠ '\\' ∧ c ≠ '\n')
    (rest : List Char) : doubleRest? false (text ++ '"' :: rest) = some (text.length + 1) := by
  induction text with
  | nil => rfl
  | cons c text ih =>
    obtain ⟨⟨mark, backslash, newline⟩, others⟩ := List.forall_mem_cons.1 plain
    rw [List.cons_append, doubleRest?, if_neg newline, if_neg fun closes => mark closes.1]
    simp [backslash, ih others]

/-- A text that is not empty has a rendering that is not empty. -/
theorem renderText_ne_nil {text : Text} (ne : text ≠ []) : (renderText text).chars ≠ [] := by
  cases text with
  | nil => exact absurd rfl ne
  | cons p text =>
    rw [renderText]
    repeat' split
    all_goals simp

end Wdl
