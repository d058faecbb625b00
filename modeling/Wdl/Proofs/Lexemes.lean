import Mathlib.Data.List.Basic
import Wdl.Proofs.Numerals
import Wdl.Token.Scan

/-!
# Wdl.Proofs.Lexemes -- what a text starts with does not depend on what it ends with

A scanner reads a text up to some point and no further. If the text is cut behind what was found,
and a line feed put there, the same is found; and where nothing was found, nothing is found then.
Each notation of a token is steady in this sense. Besides, what is found is not empty, lies in the
text, and does not end with a line break. Literal text, which may end with a line break and goes on
until something else starts, is treated on its own in `Wdl.Proofs.Tokens`.

* `Steady size f` has the four parts of this: `fits`, `ends`, `keeps` and `fails`.
* `Steady.orElse`, `Steady.map`, `Steady.ite` and `steady_findSome` are for functions that are put
  together; `steady_run`, `steady_behind`, `steady_started` and `Steady.maybeThen` for what numbers
  and words are made of.
* `pointLength?_eq_some`, `scientificLength?_eq_some` and `exponentLength?_eq` restate the functions
  of `Wdl.Number.Numeral` in terms of these, and `steady_number` is the result for numbers.
* `steady_quoted`, `steady_word` and `steady_symbol` are the results for the other kinds, and
  `steady_plain` is the result for the scanner.
-/

namespace Wdl.Scan

open Numeral

/-! ## Steady scanners

The line feed stands for whatever comes next: it belongs to no token, so a scanner that would go on
with something else stops at it. `keeps` asks only for what was found inside the part that is kept,
and `fails` asks for nothing at all. -/

/-- A character that ends a line, or may stand before one that does. -/
def isBreak (c : Char) : Bool := c = '\n' || c = '\r'

/-- A way to find what a text starts with, `size` being the number of characters found. -/
structure Steady {β : Type} (size : β → Nat) (f : List Char → Option β) : Prop where
  fits : ∀ {cs : List Char} {x : β}, f cs = some x → 0 < size x ∧ size x ≤ cs.length
  ends : ∀ {cs : List Char} {x : β}, f cs = some x →
    ∀ c, (cs.take (size x)).getLast? = some c → isBreak c = false
  keeps : ∀ {p r : List Char} {x : β}, f (p ++ r) = some x → size x ≤ p.length →
    f (p ++ ['\n']) = some x
  fails : ∀ {p r : List Char}, f (p ++ r) = none → f (p ++ ['\n']) = none

variable {β γ : Type} {size : β → Nat} {f g : List Char → Option β}

theorem steady_none : Steady size fun _ => none := by
  constructor <;> simp

/-- Two scanners, of which the second is tried where the first finds nothing. -/
theorem Steady.orElse (hf : Steady size f) (hg : Steady size g) :
    Steady size fun cs => (f cs).or (g cs) := by
  constructor
  · intro cs x h
    rcases Option.or_eq_some_iff.1 h with h | ⟨-, h⟩
    · exact hf.fits h
    · exact hg.fits h
  · intro cs x h
    rcases Option.or_eq_some_iff.1 h with h | ⟨-, h⟩
    · exact hf.ends h
    · exact hg.ends h
  · intro p r x h le
    rcases Option.or_eq_some_iff.1 h with h | ⟨none, h⟩
    · exact Option.or_eq_some_iff.2 (.inl (hf.keeps h le))
    · exact Option.or_eq_some_iff.2 (.inr ⟨hf.fails none, hg.keeps h le⟩)
  · intro p r h
    obtain ⟨none, none'⟩ := Option.or_eq_none_iff.1 h
    exact Option.or_eq_none_iff.2 ⟨hf.fails none, hg.fails none'⟩

/-- The first that finds something, of a list of steady scanners. -/
theorem steady_findSome {α : Type} {h : α → List Char → Option β} {as : List α}
    (steady : ∀ a ∈ as, Steady size (h a)) :
    Steady size fun cs => as.findSome? fun a => h a cs := by
  induction as with
  | nil => exact steady_none
  | cons a as ih =>
    have rest := ih fun b hb => steady b (by simp [hb])
    have both := (steady a (by simp)).orElse rest
    have eq : (fun cs => (a :: as).findSome? fun a => h a cs) =
        fun cs => (h a cs).or (as.findSome? fun a => h a cs) := by
      funext cs
      rw [List.findSome?_cons]
      cases h a cs <;> rfl
    rw [eq]
    exact both

/-- What is found may be given another form, as long as its size stays. -/
theorem Steady.map {size' : γ → Nat} (hf : Steady size f) (g : β → γ)
    (same : ∀ x, size' (g x) = size x) : Steady size' fun cs => (f cs).map g := by
  constructor
  · intro cs y h
    obtain ⟨x, hx, rfl⟩ := Option.map_eq_some_iff.1 h
    rw [same]
    exact hf.fits hx
  · intro cs y h
    obtain ⟨x, hx, rfl⟩ := Option.map_eq_some_iff.1 h
    rw [same]
    exact hf.ends hx
  · intro p r y h le
    obtain ⟨x, hx, rfl⟩ := Option.map_eq_some_iff.1 h
    rw [same] at le
    rw [hf.keeps hx le, Option.map_some]
  · intro p r h
    rw [hf.fails (Option.map_eq_none_iff.1 h), Option.map_none]

/-- A scanner that may be switched off. -/
theorem Steady.ite {b : Bool} (hf : Steady size f) :
    Steady size fun cs => if b = true then f cs else none := by
  cases b with
  | true => simpa using hf
  | false => simpa using steady_none

/-! ## Runs

A run of characters of a class is maximal, so cutting the text behind it changes nothing, and a line
feed, which is in no class that matters (`Inline`), ends it. -/

theorem runLength_never (cs : List Char) : runLength (fun _ => false) cs = 0 := by
  cases cs <;> rfl

theorem runLength_le (p : Char → Bool) (cs : List Char) : runLength p cs ≤ cs.length :=
  (List.takeWhile_sublist p).length_le

/-- A run that ends inside a text does not see what is behind the text. -/
theorem runLength_append_of_lt {p : Char → Bool} {xs ys : List Char}
    (h : runLength p xs < xs.length) : runLength p (xs ++ ys) = runLength p xs := by
  unfold runLength at *
  rw [List.takeWhile_append, if_neg (by omega)]

/-- A run through a whole text goes on behind it. -/
theorem runLength_append_of_eq {p : Char → Bool} {xs ys : List Char}
    (h : runLength p xs = xs.length) : runLength p (xs ++ ys) = xs.length + runLength p ys := by
  unfold runLength at *
  rw [List.takeWhile_append, if_pos h, List.length_append]

/-- A run that ends in the first part of a text is that of the first part. -/
theorem runLength_append_of_le {p : Char → Bool} {xs ys : List Char}
    (h : runLength p (xs ++ ys) ≤ xs.length) : runLength p (xs ++ ys) = runLength p xs := by
  rcases Nat.lt_or_ge (runLength p xs) xs.length with lt | ge
  · exact runLength_append_of_lt lt
  · have eq := Nat.le_antisymm (runLength_le p xs) ge
    rw [runLength_append_of_eq eq] at h ⊢
    omega

/-- A run without line feeds ends with its line. -/
theorem runLength_line {p : Char → Bool} (h : p '\n' = false) (xs ys : List Char) :
    runLength p (xs ++ '\n' :: ys) = runLength p xs := by
  rcases Nat.lt_or_ge (runLength p xs) xs.length with lt | ge
  · exact runLength_append_of_lt lt
  · have eq := Nat.le_antisymm (runLength_le p xs) ge
    rw [runLength_append_of_eq eq, eq]
    simp [runLength, h]

theorem runLength_break {p : Char → Bool} (h : p '\n' = false) (xs : List Char) :
    runLength p (xs ++ ['\n']) = runLength p xs := runLength_line h xs []

theorem getLast?_run {p : Char → Bool} {cs : List Char} {c : Char}
    (h : (cs.take (runLength p cs)).getLast? = some c) : p c = true := by
  rw [take_runLength] at h
  exact List.all_eq_true.1 List.all_takeWhile c (List.mem_of_getLast? h)

/-- A class of characters without line breaks. -/
def Inline (p : Char → Bool) : Prop := p '\n' = false ∧ p '\r' = false

instance (p : Char → Bool) : Decidable (Inline p) := inferInstanceAs (Decidable (_ ∧ _))

theorem Inline.not_break {p : Char → Bool} (h : Inline p) {c : Char} (hc : p c = true) :
    isBreak c = false := by
  have newline : c ≠ '\n' := by
    rintro rfl
    rw [h.1] at hc
    cases hc
  have carriage : c ≠ '\r' := by
    rintro rfl
    rw [h.2] at hc
    cases hc
  simp [isBreak, newline, carriage]

/-- A run that is not empty. -/
theorem steady_run {p : Char → Bool} (h : Inline p) : Steady id (runLength? p) := by
  constructor
  · intro cs n hn
    obtain ⟨rfl, pos⟩ := runLength?_eq_some.1 hn
    exact ⟨Nat.pos_of_ne_zero pos, runLength_le p cs⟩
  · intro cs n hn c hc
    obtain ⟨rfl, -⟩ := runLength?_eq_some.1 hn
    exact h.not_break (getLast?_run hc)
  · intro q r n hn le
    obtain ⟨rfl, pos⟩ := runLength?_eq_some.1 hn
    have eq := runLength_append_of_le le
    exact runLength?_eq_some.2 ⟨by rw [runLength_break h.1, eq], pos⟩
  · intro q r none
    have zero : runLength p (q ++ r) = 0 := by
      unfold runLength? at none
      split at none
      · assumption
      · cases none
    have eq := @runLength_append_of_le p q r (by omega)
    unfold runLength?
    rw [runLength_break h.1, ← eq, if_pos zero]

/-! ## A character in front -/

/-- One character of a class, then what `f` finds. -/
def behind (q : Char → Bool) (f : List Char → Option Nat) : List Char → Option Nat
  | [] => none
  | c :: rest => if q c then (f rest).map (· + 1) else none

theorem behind_eq_some {q : Char → Bool} {f : List Char → Option Nat} {cs : List Char} {n : Nat} :
    behind q f cs = some n ↔
      ∃ c rest m, cs = c :: rest ∧ q c = true ∧ f rest = some m ∧ n = m + 1 := by
  cases cs with
  | nil => simp [behind]
  | cons c rest =>
    rw [behind]
    constructor
    · intro h
      split at h
      · rename_i hc
        obtain ⟨m, hm, rfl⟩ := Option.map_eq_some_iff.1 h
        exact ⟨c, rest, m, rfl, hc, hm, rfl⟩
      · cases h
    · rintro ⟨d, rest', m, eq, hd, hm, rfl⟩
      cases eq
      rw [if_pos hd, hm, Option.map_some]

/-- The last character of what is found is not the one in front. -/
theorem getLast?_take_succ {c : Char} {rest : List Char} {m : Nat} (pos : 0 < m)
    (le : m ≤ rest.length) : ((c :: rest).take (m + 1)).getLast? = (rest.take m).getLast? := by
  rw [List.take_succ_cons, List.getLast?_cons]
  cases h : (rest.take m).getLast? with
  | some d => rfl
  | none =>
    rw [List.getLast?_eq_none_iff, List.take_eq_nil_iff] at h
    rcases h with h | h
    · omega
    · rw [h] at le
      simp at le
      omega

/-- A character of a class, and something steady behind it. -/
theorem steady_behind {q : Char → Bool} {f : List Char → Option Nat} (hq : Inline q)
    (hf : Steady id f) : Steady id (behind q f) := by
  constructor
  · intro cs n h
    obtain ⟨c, rest, m, rfl, -, hm, rfl⟩ := behind_eq_some.1 h
    have fits := hf.fits hm
    simp only [id_eq, List.length_cons] at fits ⊢
    omega
  · intro cs n h
    obtain ⟨c, rest, m, rfl, -, hm, rfl⟩ := behind_eq_some.1 h
    have fits := hf.fits hm
    rw [id_eq] at fits
    rw [id_eq, getLast?_take_succ fits.1 fits.2]
    exact hf.ends hm
  · intro p r n h le
    obtain ⟨c, rest, m, eq, hc, hm, rfl⟩ := behind_eq_some.1 h
    cases p with
    | nil => simp at le
    | cons d p =>
      cases eq
      exact behind_eq_some.2 ⟨_, _, m, rfl, hc, hf.keeps hm (by simpa using le), rfl⟩
  · intro p r h
    cases p with
    | nil => simp [behind, hq.1]
    | cons d p =>
      simp only [List.cons_append, behind] at h ⊢
      split
      · rename_i hd
        rw [if_pos hd, Option.map_eq_none_iff] at h
        rw [hf.fails h, Option.map_none]
      · rfl

/-- One character of a class and a run behind it, which may be empty. -/
theorem steady_started {q p : Char → Bool} {f : List Char → Option Nat} (hq : Inline q)
    (hp : Inline p) (empty : f [] = none)
    (eq : ∀ c rest, f (c :: rest) = if q c then some (runLength p rest + 1) else none) :
    Steady id f := by
  -- whatever is found starts with a character of the first class
  have found : ∀ {cs : List Char} {n : Nat}, f cs = some n →
      ∃ c rest, cs = c :: rest ∧ q c = true ∧ n = runLength p rest + 1 := by
    intro cs n h
    cases cs with
    | nil => rw [empty] at h; cases h
    | cons c rest =>
      rw [eq] at h
      split at h
      · rename_i hc
        exact ⟨c, rest, rfl, hc, (Option.some.inj h).symm⟩
      · cases h
  constructor
  · intro cs n h
    obtain ⟨c, rest, rfl, -, rfl⟩ := found h
    have := runLength_le p rest
    simp
    omega
  · intro cs n h d last
    obtain ⟨c, rest, rfl, hc, rfl⟩ := found h
    rw [id_eq, List.take_succ_cons, List.getLast?_cons] at last
    cases run : (rest.take (runLength p rest)).getLast? with
    | none =>
      rw [run] at last
      cases last
      exact hq.not_break hc
    | some e =>
      rw [run] at last
      cases last
      exact hp.not_break (getLast?_run run)
  · intro xs r n h le
    obtain ⟨c, rest, same, hc, rfl⟩ := found h
    cases xs with
    | nil => simp at le
    | cons c' xs =>
      rw [List.cons_append, List.cons.injEq] at same
      obtain ⟨rfl, rfl⟩ := same
      have le' : runLength p (xs ++ r) ≤ xs.length := by simpa using le
      rw [List.cons_append, eq, if_pos hc, runLength_break hp.1, runLength_append_of_le le']
  · intro xs r h
    cases xs with
    | nil => rw [List.nil_append, eq, hq.1]; rfl
    | cons c xs =>
      rw [List.cons_append, eq] at h ⊢
      split at h
      · cases h
      · rename_i hc
        rw [if_neg hc]

/-! ## Numbers

The functions for numerals are written for speed. Each is first restated by `behind`, runs and
alternatives, or by what it finds; then its steadiness is put together from lemmas that are there.
-/

theorem inline_decimalDigit : Inline isDecimalDigit := by decide

theorem isDecimalDigit_sign : isDecimalDigit '+' = false ∧ isDecimalDigit '-' = false := by decide

theorem inline_asciiDigit : Inline isAsciiDigit := by decide

/-- An exponent is a letter, perhaps a sign, and digits. -/
theorem exponentLength?_eq : exponentLength? = behind (fun c => c = 'e' || c = 'E') fun cs =>
    (behind (fun c => c = '+' || c = '-') (runLength? isDecimalDigit) cs).or
      (runLength? isDecimalDigit cs) := by
  funext cs
  cases cs with
  | nil => rfl
  | cons e rest =>
    cases rest with
    | nil => simp [exponentLength?, behind, runLength?, runLength]
    | cons sign digits =>
      by_cases hsign : sign = '+' ∨ sign = '-'
      · have other : runLength? isDecimalDigit (sign :: digits) = none := by
          rcases hsign with rfl | rfl <;> simp [runLength?, runLength, isDecimalDigit_sign]
        simp [exponentLength?, behind, hsign, other, Function.comp_def]
      · simp [exponentLength?, behind, hsign]

theorem steady_exponent : Steady id exponentLength? := by
  have digits := steady_run inline_decimalDigit
  have signed := (steady_behind (q := fun c => c = '+' || c = '-') (by decide) digits).orElse digits
  rw [exponentLength?_eq]
  exact steady_behind (by decide) signed

/-- What is found is a run of digits, a point, and a run of digits, which are not both empty. -/
theorem pointLength?_eq_some {cs : List Char} {n : Nat} : pointLength? cs = some n ↔
    ∃ rest, cs.drop (runLength isDecimalDigit cs) = '.' :: rest ∧
      ¬(runLength isDecimalDigit cs = 0 ∧ runLength isDecimalDigit rest = 0) ∧
      n = runLength isDecimalDigit cs + 1 + runLength isDecimalDigit rest := by
  unfold pointLength?
  simp only
  constructor
  · intro h
    split at h
    · rename_i rest eq
      split at h
      · cases h
      · rename_i some_digit
        cases h
        exact ⟨rest, eq, some_digit, rfl⟩
    · cases h
  · rintro ⟨rest, eq, some_digit, rfl⟩
    rw [eq]
    simp only
    rw [if_neg some_digit]

/-- How long a text is that has a character at some place. -/
theorem length_of_drop_eq_cons {cs rest : List Char} {c : Char} {k : Nat}
    (h : cs.drop k = c :: rest) : cs.length = k + 1 + rest.length := by
  have length := congrArg List.length h
  rw [List.length_drop, List.length_cons] at length
  omega

/-- What is found with a point ends with it or with a digit. -/
theorem pointLength?_ends {cs : List Char} {n : Nat} (h : pointLength? cs = some n) {c : Char}
    (last : (cs.take n).getLast? = some c) : isBreak c = false := by
  obtain ⟨rest, eq, -, rfl⟩ := pointLength?_eq_some.1 h
  have split : cs.take (runLength isDecimalDigit cs + 1 + runLength isDecimalDigit rest) =
      cs.take (runLength isDecimalDigit cs) ++
        '.' :: rest.take (runLength isDecimalDigit rest) := by
    rw [Nat.add_assoc, List.take_add, eq, Nat.add_comm 1, List.take_succ_cons]
  rw [split, List.getLast?_append, List.getLast?_cons] at last
  cases run : (rest.take (runLength isDecimalDigit rest)).getLast? with
  | none =>
    rw [run] at last
    cases last
    decide
  | some d =>
    rw [run] at last
    cases last
    exact inline_decimalDigit.not_break (getLast?_run run)

/-- Cut behind the digits that follow the point, they are still found. -/
theorem pointLength?_keeps {p r : List Char} {n : Nat} (h : pointLength? (p ++ r) = some n)
    (le : n ≤ p.length) : pointLength? (p ++ ['\n']) = some n := by
  obtain ⟨rest, eq, some_digit, rfl⟩ := pointLength?_eq_some.1 h
  have whole : runLength isDecimalDigit (p ++ r) = runLength isDecimalDigit p :=
    runLength_append_of_le (by omega)
  simp only [whole] at le eq some_digit ⊢
  rw [List.drop_append_of_le_length (by omega)] at eq
  -- the point lies in the part that stays, so both runs of digits do
  cases hp : p.drop (runLength isDecimalDigit p) with
  | nil =>
    have := congrArg List.length hp
    rw [List.length_drop, List.length_nil] at this
    omega
  | cons c p' =>
    rw [hp, List.cons_append] at eq
    obtain ⟨rfl, rfl⟩ := List.cons.inj eq
    have length := length_of_drop_eq_cons hp
    have fraction := @runLength_append_of_le isDecimalDigit p' r (by omega)
    refine pointLength?_eq_some.2 ⟨p' ++ ['\n'], ?_, ?_, ?_⟩
    · rw [runLength_break inline_decimalDigit.1, List.drop_append_of_le_length (by omega), hp,
        List.cons_append]
    · rwa [runLength_break inline_decimalDigit.1, runLength_break inline_decimalDigit.1, ← fraction]
    · rw [runLength_break inline_decimalDigit.1, runLength_break inline_decimalDigit.1, fraction]

theorem pointLength?_fails {p r : List Char} (h : pointLength? (p ++ r) = none) :
    pointLength? (p ++ ['\n']) = none := by
  -- had the cut text a point with digits, then the whole text would have had them too
  cases found : pointLength? (p ++ ['\n']) with
  | none => rfl
  | some n =>
    obtain ⟨rest, eq, some_digit, -⟩ := pointLength?_eq_some.1 found
    rw [runLength_break inline_decimalDigit.1] at eq some_digit
    have le := runLength_le isDecimalDigit p
    rw [List.drop_append_of_le_length le] at eq
    cases hp : p.drop (runLength isDecimalDigit p) with
    | nil => rw [hp] at eq; cases eq
    | cons c p' =>
      rw [hp, List.cons_append] at eq
      obtain ⟨rfl, rfl⟩ := List.cons.inj eq
      have length := length_of_drop_eq_cons hp
      have whole : runLength isDecimalDigit (p ++ r) = runLength isDecimalDigit p :=
        runLength_append_of_lt (by omega)
      have drop : (p ++ r).drop (runLength isDecimalDigit (p ++ r)) = '.' :: (p' ++ r) := by
        rw [whole, List.drop_append_of_le_length le, hp, List.cons_append]
      have longer : ¬(runLength isDecimalDigit (p ++ r) = 0 ∧
          runLength isDecimalDigit (p' ++ r) = 0) := by
        rw [whole]
        rintro ⟨zero, zero'⟩
        apply some_digit
        have := @runLength_append_of_le isDecimalDigit p' r (by omega)
        rw [runLength_break inline_decimalDigit.1, ← this]
        exact ⟨zero, zero'⟩
      rw [pointLength?_eq_some.2 ⟨_, drop, longer, rfl⟩] at h
      cases h

theorem steady_point : Steady id pointLength? where
  fits := fun {cs n} h => by
    obtain ⟨rest, eq, -, rfl⟩ := pointLength?_eq_some.1 h
    have length := length_of_drop_eq_cons eq
    have := runLength_le isDecimalDigit rest
    simp only [id_eq]
    omega
  ends := fun h _ last => pointLength?_ends h last
  keeps := pointLength?_keeps
  fails := pointLength?_fails

/-- What is found behind a part of the text ends with no line break, so that part with it ends with
none. -/
theorem Steady.ends_behind {g : List Char → Option Nat} (hg : Steady id g) {cs : List Char}
    {m k : Nat} (hk : g (cs.drop m) = some k) :
    ∀ c, (cs.take (m + k)).getLast? = some c → isBreak c = false := by
  obtain ⟨pos, le⟩ := hg.fits hk
  have ne : (cs.drop m).take k ≠ [] := by
    rw [← List.length_pos_iff, List.length_take]
    exact Nat.lt_min.2 ⟨pos, Nat.lt_of_lt_of_le pos le⟩
  rw [List.take_add, List.getLast?_append_of_ne_nil _ ne]
  exact hg.ends hk

/-- What `f` finds, and then what `g` finds behind it, if anything. -/
theorem Steady.maybeThen {f g : List Char → Option Nat} (hf : Steady id f) (hg : Steady id g) :
    Steady id fun cs => (f cs).map fun n => n + (g (cs.drop n)).getD 0 := by
  -- what is found is found by both, or by the first where the second finds nothing
  have shape : ∀ {cs : List Char} {n : Nat},
      (f cs).map (fun n => n + (g (cs.drop n)).getD 0) = some n ↔
        ∃ m, f cs = some m ∧
          ((g (cs.drop m) = none ∧ n = m) ∨ ∃ k, g (cs.drop m) = some k ∧ n = m + k) := by
    intro cs n
    rw [Option.map_eq_some_iff]
    constructor
    · rintro ⟨m, hm, rfl⟩
      refine ⟨m, hm, ?_⟩
      cases hk : g (cs.drop m) with
      | none => exact .inl ⟨rfl, rfl⟩
      | some k => exact .inr ⟨k, rfl, rfl⟩
    · rintro ⟨m, hm, ⟨none, rfl⟩ | ⟨k, hk, rfl⟩⟩
      · exact ⟨n, hm, by rw [none]; rfl⟩
      · exact ⟨m, hm, by rw [hk]; rfl⟩
  constructor
  · intro cs n h
    obtain ⟨m, hm, ⟨-, rfl⟩ | ⟨k, hk, rfl⟩⟩ := shape.1 h
    · exact hf.fits hm
    · have first := hf.fits hm
      have second := hg.fits hk
      simp only [id_eq, List.length_drop] at first second ⊢
      omega
  · intro cs n h
    obtain ⟨m, hm, ⟨-, rfl⟩ | ⟨k, hk, rfl⟩⟩ := shape.1 h
    · exact hf.ends hm
    · exact hg.ends_behind hk
  · intro p r n h le
    obtain ⟨m, hm, rest⟩ := shape.1 h
    have first : m ≤ p.length := by
      rcases rest with ⟨-, rfl⟩ | ⟨k, -, rfl⟩
      · exact le
      · simp only [id_eq] at le
        omega
    refine shape.2 ⟨m, hf.keeps hm first, ?_⟩
    rw [List.drop_append_of_le_length first] at rest ⊢
    rcases rest with ⟨none, rfl⟩ | ⟨k, hk, rfl⟩
    · exact .inl ⟨hg.fails none, rfl⟩
    · refine .inr ⟨k, hg.keeps hk ?_, rfl⟩
      simp only [id_eq, List.length_drop] at le ⊢
      omega
  · intro p r h
    rw [Option.map_eq_none_iff] at h ⊢
    exact hf.fails h

theorem steady_fraction : Steady id fractionLength? := steady_point.maybeThen steady_exponent

/-- What is found with an exponent and no point is a run of digits and the exponent. -/
theorem scientificLength?_eq_some {cs : List Char} {n : Nat} : scientificLength? cs = some n ↔
    ∃ m k, runLength? isDecimalDigit cs = some m ∧ exponentLength? (cs.drop m) = some k ∧
      n = m + k := by
  rw [scientificLength?, Option.bind_eq_some_iff]
  constructor
  · rintro ⟨m, hm, h⟩
    obtain ⟨k, hk, rfl⟩ := Option.map_eq_some_iff.1 h
    exact ⟨m, k, hm, hk, rfl⟩
  · rintro ⟨m, k, hm, hk, rfl⟩
    exact ⟨m, hm, by rw [hk, Option.map_some]⟩

theorem steady_scientific : Steady id scientificLength? := by
  have digits := steady_run inline_decimalDigit
  constructor
  · intro cs n h
    obtain ⟨m, k, hm, hk, rfl⟩ := scientificLength?_eq_some.1 h
    have first := digits.fits hm
    have second := steady_exponent.fits hk
    simp only [id_eq, List.length_drop] at first second ⊢
    omega
  · intro cs n h
    obtain ⟨m, k, hm, hk, rfl⟩ := scientificLength?_eq_some.1 h
    exact steady_exponent.ends_behind hk
  · intro p r n h le
    obtain ⟨m, k, hm, hk, rfl⟩ := scientificLength?_eq_some.1 h
    have first : m ≤ p.length := by
      simp only [id_eq] at le
      omega
    rw [List.drop_append_of_le_length first] at hk
    refine scientificLength?_eq_some.2 ⟨m, k, digits.keeps hm first, ?_, rfl⟩
    rw [List.drop_append_of_le_length first]
    refine steady_exponent.keeps hk ?_
    simp only [id_eq, List.length_drop] at le ⊢
    omega
  · intro p r h
    cases found : scientificLength? (p ++ ['\n']) with
    | none => rfl
    | some n =>
      -- the exponent lies in the part that stays, so the digits before it do
      obtain ⟨m, k, hm, hk, -⟩ := scientificLength?_eq_some.1 found
      obtain ⟨rfl, pos⟩ := runLength?_eq_some.1 hm
      rw [runLength_break inline_decimalDigit.1] at hk pos
      have le := runLength_le isDecimalDigit p
      rw [List.drop_append_of_le_length le] at hk
      have lt : runLength isDecimalDigit p < p.length := by
        refine Nat.lt_of_le_of_ne le fun eq => ?_
        rw [eq, List.drop_length] at hk
        cases hk
      have whole : runLength isDecimalDigit (p ++ r) = runLength isDecimalDigit p :=
        runLength_append_of_lt lt
      have none : exponentLength? (p.drop (runLength isDecimalDigit p) ++ r) = none := by
        rw [← List.drop_append_of_le_length le, ← whole]
        cases hk' : exponentLength? ((p ++ r).drop (runLength isDecimalDigit (p ++ r))) with
        | none => rfl
        | some k' =>
          rw [scientificLength?_eq_some.2
            ⟨_, k', runLength?_eq_some.2 ⟨rfl, by omega⟩, hk', rfl⟩] at h
          cases h
      rw [steady_exponent.fails none] at hk
      cases hk

/-- A hexadecimal numeral is a zero, a letter, and digits. -/
theorem hexLength?_eq : hexLength? = behind (· == '0') (behind (fun c => c = 'x' || c = 'X')
    (runLength? isHexDigit)) := by
  funext cs
  match cs with
  | [] => rfl
  | [z] => simp [hexLength?, behind]
  | z :: x :: rest =>
    by_cases hz : z = '0' <;> by_cases hx : x = 'x' ∨ x = 'X' <;>
      simp [hexLength?, behind, hz, hx, Function.comp_def]

theorem steady_hex : Steady id hexLength? := by
  rw [hexLength?_eq]
  exact steady_behind (by decide) (steady_behind (by decide) (steady_run (by decide)))

/-- An octal numeral is a zero and digits. -/
theorem octalLength?_eq : octalLength? = behind (· == '0') (runLength? isOctalDigit) := by
  funext cs
  match cs with
  | [] => rfl
  | z :: rest => by_cases hz : z = '0' <;> simp [octalLength?, behind, hz]

theorem steady_octal : Steady id octalLength? := by
  rw [octalLength?_eq]
  exact steady_behind (by decide) (steady_run (by decide))

/-- A decimal numeral is a zero alone, or digits of which the first is not zero. -/
theorem decimalLength?_eq : decimalLength? = fun cs =>
    Option.or (behind (· == '0') (fun _ => some 0) cs)
      (behind (fun c => '1' ≤ c && c ≤ '9')
        (fun rest => some (runLength isAsciiDigit rest)) cs) := by
  funext cs
  cases cs with
  | nil => rfl
  | cons d rest => by_cases h : d = '0' <;> simp [decimalLength?, behind, h]

theorem steady_decimal : Steady id decimalLength? := by
  have zero : Steady id (behind (· == '0') fun _ => some 0) := by
    refine steady_started (q := (· == '0')) (p := fun _ => false) (by decide) (by decide) rfl ?_
    intro c rest
    by_cases h : c = '0' <;> simp [h, behind, runLength_never]
  have positive : Steady id
      (behind (fun c => '1' ≤ c && c ≤ '9') fun rest => some (runLength isAsciiDigit rest)) := by
    refine steady_started (q := fun c => '1' ≤ c && c ≤ '9') (by decide) inline_asciiDigit rfl ?_
    intro c rest
    simp [behind]
  rw [decimalLength?_eq]
  exact zero.orElse positive

theorem steady_lengthIn (kind : NumeralKind) : Steady id (lengthIn? kind) := by
  cases kind with
  | float => exact steady_fraction.orElse steady_scientific
  | hexadecimal => exact steady_hex
  | octal => exact steady_octal
  | decimal => exact steady_decimal

theorem steady_number (fe : FrontEnd) : Steady Prod.snd fe.scanNumber := by
  rw [fe.scanNumber_eq]
  exact steady_findSome fun kind _ => (steady_lengthIn kind).map (kind, ·) fun _ => rfl

/-! ## Placeholders and string literals

Texts in quotes end with a mark, so what is found in them ends with no line break even where a line
break is in it. In single quotes a backslash guards a mark only if there is another one behind it,
which makes the text in front depend on the text behind; `singleRest?_keeps` deals with both
directions at once. -/

theorem openingLength?_eq : openingLength? = behind isSigil fun cs =>
    if cs.head? = some '\x7b' then some 1 else none := by
  funext cs
  match cs with
  | [] => rfl
  | [c] => simp [openingLength?, behind]
  | c :: d :: rest =>
    by_cases hc : isSigil c = true <;> by_cases hd : d = '\x7b' <;>
      simp [openingLength?, behind, hc, hd]

theorem steady_opening : Steady id openingLength? := by
  rw [openingLength?_eq]
  refine steady_behind (by decide) ?_
  refine steady_started (q := fun c => c = '\x7b') (p := fun _ => false) (by decide) (by decide)
    rfl ?_
  intro c rest
  by_cases h : c = '\x7b' <;> simp [h, runLength_never]

/-- A text in double quotes ends with its mark. -/
theorem doubleRest?_ends {escaped : Bool} {cs : List Char} {n : Nat}
    (h : doubleRest? escaped cs = some n) :
    0 < n ∧ n ≤ cs.length ∧ (cs.take n).getLast? = some '"' := by
  induction cs generalizing escaped n with
  | nil => cases h
  | cons c cs ih =>
    rw [doubleRest?] at h
    split at h
    · cases h
    · split at h
      · rename_i closes
        cases h
        simp [closes.1]
      · obtain ⟨m, hm, rfl⟩ := Option.map_eq_some_iff.1 h
        obtain ⟨pos, le, last⟩ := ih hm
        rw [getLast?_take_succ pos le]
        exact ⟨by omega, by rw [List.length_cons]; omega, last⟩

theorem steady_double (escaped : Bool) : Steady id (doubleRest? escaped) := by
  constructor
  · intro cs n h
    obtain ⟨pos, le, -⟩ := doubleRest?_ends h
    exact ⟨pos, le⟩
  · intro cs n h c last
    obtain ⟨-, -, mark⟩ := doubleRest?_ends h
    rw [id_eq, mark] at last
    cases last
    decide
  · intro p r n h le
    induction p generalizing escaped n with
    | nil =>
      have := (doubleRest?_ends h).1
      simp only [id_eq, List.length_nil] at le
      omega
    | cons c p ih =>
      rw [List.cons_append, doubleRest?] at h ⊢
      split at h
      · cases h
      · rename_i hc
        rw [if_neg hc]
        split at h
        · rename_i closes
          rw [if_pos closes, h]
        · rename_i goes
          rw [if_neg goes]
          obtain ⟨m, hm, rfl⟩ := Option.map_eq_some_iff.1 h
          rw [ih _ hm (by simpa using le), Option.map_some]
  · intro p r h
    induction p generalizing escaped with
    | nil => simp [doubleRest?]
    | cons c p ih =>
      rw [List.cons_append, doubleRest?] at h ⊢
      split at h
      · rename_i hc
        rw [if_pos hc]
      · rename_i hc
        rw [if_neg hc]
        split at h
        · cases h
        · rename_i goes
          rw [if_neg goes, ih _ (Option.map_eq_none_iff.1 h), Option.map_none]

/-- A text in single quotes ends with its mark. -/
theorem singleRest?_ends {cs : List Char} {n : Nat} (h : singleRest? cs = some n) :
    0 < n ∧ n ≤ cs.length ∧ (cs.take n).getLast? = some '\'' := by
  induction cs using singleRest?.induct generalizing n with
  | case1 => cases h
  | case2 cs ih =>
    rw [singleRest?] at h
    obtain ⟨m, hm, rfl⟩ := Option.map_eq_some_iff.1 h
    obtain ⟨pos, le, last⟩ := ih hm
    rw [getLast?_take_succ (by omega) (by rw [List.length_cons]; omega), getLast?_take_succ pos le]
    exact ⟨by omega, by simp only [List.length_cons]; omega, last⟩
  | case3 cs ih =>
    rw [singleRest?] at h
    cases rest : singleRest? cs with
    | none =>
      rw [rest] at h
      cases h
      simp
    | some m =>
      rw [rest] at h
      cases h
      obtain ⟨pos, le, last⟩ := ih rest
      simp only [Option.getD_some]
      rw [getLast?_take_succ (by omega) (by rw [List.length_cons]; omega),
        getLast?_take_succ pos le]
      exact ⟨by omega, by simp only [List.length_cons]; omega, last⟩
  | case4 cs _ _ =>
    rw [singleRest?, if_pos rfl] at h
    · cases h
      simp
    · assumption
    · assumption
  | case5 c cs _ _ other ih =>
    rw [singleRest?, if_neg other] at h
    · obtain ⟨m, hm, rfl⟩ := Option.map_eq_some_iff.1 h
      obtain ⟨pos, le, last⟩ := ih hm
      rw [getLast?_take_succ pos le]
      exact ⟨by omega, by rw [List.length_cons]; omega, last⟩
    · assumption
    · assumption

/-- Where a backslash guards nothing, it counts as any other character. -/
theorem singleRest?_plain {c : Char} {cs : List Char} (mark : c ≠ '\'')
    (backslash : ∀ rest, c = '\\' → cs ≠ '\\' :: rest)
    (guard : ∀ rest, c = '\\' → cs ≠ '\'' :: rest) :
    singleRest? (c :: cs) = (singleRest? cs).map (· + 1) := by
  rw [singleRest?, if_neg mark]
  · exact backslash
  · exact guard

/-- What a character guards is the one behind it: what comes later does not matter. -/
theorem singleRest?_pair {c d : Char} {p : List Char} (mark : c ≠ '\'')
    (backslash : ∀ q, c = '\\' → d :: p = '\\' :: q → False)
    (guard : ∀ q, c = '\\' → d :: p = '\'' :: q → False) (cs : List Char) :
    singleRest? (c :: d :: p ++ cs) = (singleRest? (d :: p ++ cs)).map (· + 1) := by
  refine singleRest?_plain mark ?_ ?_
  · rintro rest hc ⟨⟩
    exact backslash p hc rfl
  · rintro rest hc ⟨⟩
    exact guard p hc rfl

/-- Behind a backslash at least one more character is read before the mark. -/
theorem two_le_singleRest? {r : List Char} {n : Nat} (h : singleRest? ('\\' :: r) = some n) :
    2 ≤ n := by
  obtain ⟨-, le, last⟩ := singleRest?_ends h
  match n, last with
  | 0, last => simp at last
  | 1, last => simp at last
  | n + 2, _ => omega

theorem singleRest?_keeps {p r : List Char} :
    (∀ n, singleRest? (p ++ r) = some n → n ≤ p.length → singleRest? (p ++ ['\n']) = some n) ∧
      (singleRest? (p ++ r) = none → singleRest? (p ++ ['\n']) = none) := by
  induction p using singleRest?.induct with
  | case1 =>
    refine ⟨fun n h le => ?_, fun _ => rfl⟩
    have := (singleRest?_ends h).1
    simp at le
    omega
  | case2 p ih =>
    simp only [List.cons_append, singleRest?]
    refine ⟨fun n h le => ?_, fun h => ?_⟩
    · obtain ⟨m, hm, rfl⟩ := Option.map_eq_some_iff.1 h
      rw [ih.1 m hm (by simpa using le), Option.map_some]
    · rw [ih.2 (Option.map_eq_none_iff.1 h), Option.map_none]
  | case3 p ih =>
    -- a guarded mark ends the text if no other one does
    simp only [List.cons_append, singleRest?]
    refine ⟨fun n h le => ?_, fun h => by cases h⟩
    cases rest : singleRest? (p ++ r) with
    | none =>
      rw [rest] at h
      rw [ih.2 rest, h]
    | some m =>
      rw [rest] at h
      cases h
      rw [ih.1 m rest (by simpa using le)]
  | case4 p _ _ =>
    have eq : ∀ cs : List Char, singleRest? ('\'' :: cs) = some 1 := by
      intro cs
      rw [singleRest?, if_pos rfl]
      · intro rest h
        cases h
      · intro rest h
        cases h
    simp only [List.cons_append, eq]
    exact ⟨fun n h _ => h, fun h => by cases h⟩
  | case5 c p backslash guard mark ih =>
    -- what a backslash at the end guards is cut off, and what was found there reaches beyond it
    cases p with
    | nil =>
      by_cases hc : c = '\\'
      · subst hc
        refine ⟨fun n h le => ?_, fun _ => rfl⟩
        have := two_le_singleRest? h
        simp at le
        omega
      · have plain : ∀ cs : List Char, singleRest? (c :: cs) = (singleRest? cs).map (· + 1) :=
          fun cs => singleRest?_plain mark (fun _ h => absurd h hc) (fun _ h => absurd h hc)
        simp only [List.cons_append, plain]
        refine ⟨fun n h le => ?_, fun _ => rfl⟩
        obtain ⟨m, hm, rfl⟩ := Option.map_eq_some_iff.1 h
        have := (singleRest?_ends hm).1
        simp at le
        omega
    | cons d p =>
      have plain := singleRest?_pair mark backslash guard
      rw [plain, plain]
      refine ⟨fun n h le => ?_, fun h => ?_⟩
      · obtain ⟨m, hm, rfl⟩ := Option.map_eq_some_iff.1 h
        rw [ih.1 m hm (by simpa using le), Option.map_some]
      · rw [ih.2 (Option.map_eq_none_iff.1 h), Option.map_none]

theorem steady_single : Steady id singleRest? := by
  constructor
  · intro cs n h
    obtain ⟨pos, le, -⟩ := singleRest?_ends h
    exact ⟨pos, le⟩
  · intro cs n h c last
    obtain ⟨-, -, mark⟩ := singleRest?_ends h
    rw [id_eq, mark] at last
    cases last
    decide
  · intro p r n h le
    exact singleRest?_keeps.1 n h le
  · intro p r h
    exact singleRest?_keeps.2 h

theorem quotedLength?_double :
    quotedLength? .double = behind (· == Quote.double.char) (doubleRest? false) := by
  funext cs
  cases cs with
  | nil => rfl
  | cons c rest => by_cases hc : c = Quote.double.char <;> simp [quotedLength?, behind, hc]

theorem quotedLength?_single :
    quotedLength? .single = behind (· == Quote.single.char) singleRest? := by
  funext cs
  cases cs with
  | nil => rfl
  | cons c rest => by_cases hc : c = Quote.single.char <;> simp [quotedLength?, behind, hc]

theorem steady_quoted (q : Quote) : Steady id (quotedLength? q) := by
  cases q with
  | double =>
    rw [quotedLength?_double]
    exact steady_behind (by decide) (steady_double false)
  | single =>
    rw [quotedLength?_single]
    exact steady_behind (by decide) steady_single

/-! ## Words and symbols

What is looked for is given by its spelling, and the first of the terminals that fits is found. For
words the spelling is looked up once the whole word is known, if names are looked for as well. -/

theorem inline_nameChar : Inline isNameChar := by decide

theorem steady_name : Steady id nameLength? :=
  steady_started (by decide : Inline isLetter) inline_nameChar rfl fun _ _ => rfl

/-- A fixed spelling without line breaks. -/
theorem steady_spelling {w : List Char} (ne : w ≠ []) (unbroken : w.any isBreak = false) :
    Steady id (spellingLength? w) := by
  have inline : ∀ c ∈ w, isBreak c = false := fun c mem => by
    simpa using List.any_eq_false.1 unbroken c mem
  have shape : ∀ {cs : List Char} {n : Nat},
      spellingLength? w cs = some n ↔ w <+: cs ∧ n = w.length := by
    intro cs n
    rw [spellingLength?]
    split
    · rename_i h
      rw [List.isPrefixOf_iff_prefix] at h
      simp [h, eq_comm]
    · rename_i h
      rw [List.isPrefixOf_iff_prefix] at h
      simp [h]
  have newline : '\n' ∉ w := by
    intro mem
    have := inline _ mem
    cases this
  constructor
  · intro cs n h
    obtain ⟨front, rfl⟩ := shape.1 h
    exact ⟨List.length_pos_of_ne_nil ne, front.length_le⟩
  · intro cs n h c last
    obtain ⟨front, rfl⟩ := shape.1 h
    rw [id_eq, ← List.prefix_iff_eq_take.1 front] at last
    exact inline c (List.mem_of_getLast? last)
  · intro p r n h le
    obtain ⟨front, rfl⟩ := shape.1 h
    have inside : w <+: p := List.prefix_of_prefix_length_le front (List.prefix_append p r) le
    exact shape.2 ⟨inside.trans (List.prefix_append p _), rfl⟩
  · intro p r h
    cases found : spellingLength? w (p ++ ['\n']) with
    | none => rfl
    | some n =>
      obtain ⟨front, -⟩ := shape.1 found
      rcases List.prefix_concat_iff.1 front with whole | inside
      · exact absurd (by rw [whole]; simp) newline
      · rw [shape.2 ⟨inside.trans (List.prefix_append p r), rfl⟩] at h
        cases h

theorem steady_keyword (k : Keyword) : Steady id (spellingLength? k.spelling) := by
  cases k <;> exact steady_spelling (by decide) rfl

theorem steady_spelled (k : Symbol) : Steady id (spellingLength? k.spelling) := by
  cases k <;> exact steady_spelling (by decide) rfl

theorem steady_mark (q : Quote) : Steady id (spellingLength? [q.char]) := by
  cases q <;> exact steady_spelling (by decide) rfl

theorem steady_word (expect : Expect) : Steady Prod.snd (word? expect) := by
  unfold word?
  split
  · -- a name is told from a keyword by its own characters
    have named : ∀ {cs : List Char} {found : Terminal × Nat},
        (nameLength? cs).map (fun n =>
          (((keywordOf? expect (cs.take n)).map Terminal.keyword).getD .name, n)) = some found ↔
        nameLength? cs = some found.2 ∧
          found.1 = ((keywordOf? expect (cs.take found.2)).map Terminal.keyword).getD .name := by
      intro cs found
      rw [Option.map_eq_some_iff]
      constructor
      · rintro ⟨n, hn, rfl⟩
        exact ⟨hn, rfl⟩
      · rintro ⟨hn, eq⟩
        exact ⟨found.2, hn, by rw [← eq]⟩
    constructor
    · intro cs found h
      exact steady_name.fits (named.1 h).1
    · intro cs found h
      exact steady_name.ends (named.1 h).1
    · intro p r found h le
      obtain ⟨hn, eq⟩ := named.1 h
      refine named.2 ⟨steady_name.keeps hn le, ?_⟩
      rw [List.take_append_of_le_length le] at eq ⊢
      exact eq
    · intro p r h
      rw [Option.map_eq_none_iff] at h ⊢
      exact steady_name.fails h
  · exact steady_findSome fun k _ =>
      ((steady_keyword k).map (Terminal.keyword k, ·) fun _ => rfl).ite

theorem steady_symbol (expect : Expect) : Steady Prod.snd (symbol? expect) :=
  steady_findSome fun s _ => ((steady_spelled s).map (Terminal.symbol s, ·) fun _ => rfl).ite

theorem Steady.class {f : List Char → Option Nat} (hf : Steady id f) (expect : Expect)
    (t : Terminal) : Steady Prod.snd (class? expect t f) := (hf.map (t, ·) fun _ => rfl).ite

/-- What is not literal text is steady. -/
theorem steady_plain (fe : FrontEnd) (expect : Expect) : Steady Prod.snd (plain? fe expect) := by
  have version : Steady id (runLength? isVersionChar) := steady_run (by decide)
  have number : Steady Prod.snd (number? fe expect) :=
    ((steady_number fe).map (fun found => (Terminal.number found.1, found.2)) fun _ => rfl).ite
  have all := number.orElse ((steady_opening.class expect .opening).orElse
    (((steady_quoted .single).class expect (.quoted .single)).orElse ((steady_word expect).orElse
    (((steady_quoted .double).class expect (.quoted .double)).orElse
    ((version.class expect .versionWord).orElse (((steady_mark .double).class expect
    (.mark .double)).orElse (((steady_mark .single).class expect (.mark .single)).orElse
    (steady_symbol expect))))))))
  show Steady Prod.snd fun cs => plain? fe expect cs
  simp only [plain?, Option.orElse_eq_orElse, Option.orElse_eq_or]
  exact all

end Wdl.Scan
