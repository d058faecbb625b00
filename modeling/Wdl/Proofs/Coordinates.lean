import Mathlib.Data.Nat.Log
import Mathlib.Data.Prod.Lex
import Wdl.Proofs.Positions

/-!
# Wdl.Proofs.Coordinates -- lines and columns, and bytes, for every integer

Any integer may be asked for as a position; it counts as the nearest position of the text. Its line
and column are counted from the start of the text, and so are its bytes, whatever table the text
keeps. Both ways to write a position keep the order of positions, and neither loses anything: a line
and column lead back to the position, and two offsets cut the encoded text into the encodings of its
pieces.

* `SourceText.clamp` gives the nearest position; `clamp_cast` says which it is, by `max` and `min`.
* `searchWithin` and `lineColumn?` are the search again with look-ups that may fail and with a bound
  on its rounds. `searchWithin_eq` and `lineColumn?_eq` say that none fails and that the bound, a
  logarithm of the number of lines, is enough.
* `coordinates_strictMono` and `bytesBefore_strictMono` are about the order of positions,
  `extract_utf8` about the pieces of the encoded text.
* `lineColumn_laws` and `byteOffset_laws` put this together for all integers.
-/

namespace Wdl

namespace SourceText

variable (s : SourceText)

/-! ## The nearest position -/

theorem clamp_le (p : Int) : s.clamp p ≤ s.chars.length := by
  rw [clamp, s.length_eq]
  exact Nat.min_le_right _ _

/-- The nearest position, as an integer. -/
theorem clamp_cast (p : Int) : (s.clamp p : Int) = max 0 (min p s.chars.length) := by
  rw [clamp, s.length_eq]
  omega

theorem clamp_clamp (p : Int) : s.clamp (s.clamp p) = s.clamp p := s.clamp_of_le (s.clamp_le p)

/-- Line and column of an integer are those of the nearest position. -/
theorem lineColumn_nearest (p : Int) :
    s.lineColumn p = (lineAt s.chars (s.clamp p), columnAt s.chars (s.clamp p)) := by
  rw [← s.lineColumn_eq (s.clamp_le p), lineColumn, lineColumn, clamp_clamp]

theorem byteOffset_nearest (p : Int) : s.byteOffset p = bytesBefore s.chars (s.clamp p) := by
  rw [← s.byteOffset_eq (s.clamp_le p), byteOffset, byteOffset, clamp_clamp]

/-! ## Looking a line up -/

/-- The search for a line with look-ups that may fail, given up after `n` rounds. -/
def searchWithin (starts : Array Nat) (q : Nat) : Nat → Nat → Nat → Option Nat
  | 0, lo, hi => if hi - lo > 1 then none else some lo
  | n + 1, lo, hi =>
    if hi - lo > 1 then do
      let mid := (lo + hi) / 2
      let start ← starts[mid]?
      if start ≤ q then searchWithin starts q n mid hi else searchWithin starts q n lo mid
    else some lo

/-- The search never looks outside the table, and each round halves what is left. -/
theorem searchWithin_eq (starts : Array Nat) (q n lo hi : Nat) (inside : hi ≤ starts.size)
    (rounds : hi - lo ≤ 2 ^ n) :
    searchWithin starts q n lo hi = some (searchLine starts q lo hi) := by
  induction n generalizing lo hi with
  | zero =>
    have narrow : ¬ hi - lo > 1 := Nat.not_lt.2 rounds
    rw [searchWithin, searchLine, if_neg narrow, if_neg narrow]
  | succ n ih =>
    rw [searchWithin, searchLine]
    by_cases wide : hi - lo > 1
    · -- the middle is in the table, and neither half is wider than half of what was left
      have here : (lo + hi) / 2 < starts.size := by omega
      have look : starts[(lo + hi) / 2]? = some (starts.getD ((lo + hi) / 2) 0) := by
        simp [Array.getD_eq_getD_getElem?, here]
      rw [Nat.pow_succ] at rounds
      rw [if_pos wide, if_pos wide]
      dsimp only
      rw [look, Option.bind_eq_bind, Option.bind_some]
      by_cases below : starts.getD ((lo + hi) / 2) 0 ≤ q
      · rw [if_pos below, if_pos below]
        exact ih _ hi inside (by omega)
      · rw [if_neg below, if_neg below]
        exact ih lo _ (Nat.le_of_lt here) (by omega)
    · rw [if_neg wide, if_neg wide]

/-- Line and column with look-ups that may fail, in as many rounds as there are binary digits in
the number of lines. -/
def lineColumn? (p : Int) : Option (Nat × Nat) := do
  let line ← searchWithin s.lineStarts (s.clamp p) (Nat.clog 2 s.lineStarts.size) 0
    s.lineStarts.size
  let start ← s.lineStarts[line]?
  return (line + 1, s.clamp p - start + 1)

/-- No look-up fails, and the rounds are enough. -/
theorem lineColumn?_eq (p : Int) : s.lineColumn? p = some (s.lineColumn p) := by
  have rounds : s.lineStarts.size - 0 ≤ 2 ^ Nat.clog 2 s.lineStarts.size :=
    Nat.le_pow_clog (by decide) _
  have line : (s.lineColumn p).1 = lineAt s.chars (s.clamp p) := by rw [lineColumn_nearest]
  have within := s.lineStarts_size_le (i := s.clamp p)
  rw [← line] at within
  have inside : searchLine s.lineStarts (s.clamp p) 0 s.lineStarts.size < s.lineStarts.size :=
    within
  have look : s.lineStarts[searchLine s.lineStarts (s.clamp p) 0 s.lineStarts.size]? =
      some (s.lineStarts.getD (searchLine s.lineStarts (s.clamp p) 0 s.lineStarts.size) 0) := by
    simp [Array.getD_eq_getD_getElem?, inside]
  rw [lineColumn?, searchWithin_eq _ _ _ _ _ (Nat.le_refl _) rounds]
  show (s.lineStarts[searchLine s.lineStarts (s.clamp p) 0 s.lineStarts.size]?.bind _) = _
  rw [look]
  rfl

/-! ## The order of positions -/

/-- A later position is on a later line, or in a later column of the same line. -/
theorem coordinates_strictMono :
    StrictMonoOn (fun i => toLex (lineAt s.chars i, columnAt s.chars i))
      {i | i ≤ s.chars.length} := by
  intro i hi j hj less
  rw [Prod.Lex.toLex_lt_toLex]
  have lines : lineAt s.chars i ≤ lineAt s.chars j := by
    have sub := (List.take_prefix_take_left (l := s.chars) (Nat.le_of_lt less)).sublist
    exact Nat.add_le_add_right (sub.count_le '\n') 1
  rcases Nat.lt_or_eq_of_le lines with later | same
  · exact .inl later
  · -- on one line columns are counted from one start
    have first := s.lineStart_add_column hi
    have second := s.lineStart_add_column hj
    rw [← same] at second
    exact .inr ⟨same, show columnAt s.chars i < columnAt s.chars j by omega⟩

theorem lineColumn_lt_iff (p q : Int) :
    toLex (s.lineColumn p) < toLex (s.lineColumn q) ↔ s.clamp p < s.clamp q := by
  rw [lineColumn_nearest, lineColumn_nearest]
  exact s.coordinates_strictMono.lt_iff_lt (s.clamp_le p) (s.clamp_le q)

/-- Line and column of any integer are found by look-ups that all succeed, count line feeds and the
characters behind the last one, lead back to the nearest position, and are in the order of
positions. -/
theorem lineColumn_laws (p : Int) :
    (s.clamp p : Int) = max 0 (min p s.chars.length) ∧
    s.lineColumn p =
      (1 + (s.chars.take (s.clamp p)).count '\n',
        1 + ((s.chars.take (s.clamp p)).reverse.takeWhile (· != '\n')).length) ∧
    s.lineColumn? p = some (s.lineColumn p) ∧
    s.charPos (s.lineColumn p).1 (s.lineColumn p).2 = s.clamp p ∧
    s.lineColumn (s.charPos (s.lineColumn p).1 (s.lineColumn p).2) = s.lineColumn p ∧
    ∀ q : Int, toLex (s.lineColumn p) < toLex (s.lineColumn q) ↔ s.clamp p < s.clamp q := by
  have back : s.charPos (s.lineColumn p).1 (s.lineColumn p).2 = s.clamp p := by
    rw [lineColumn_nearest]
    exact s.charPos_lineColumn (s.clamp_le p)
  refine ⟨s.clamp_cast p, ?_, s.lineColumn?_eq p, back, ?_, s.lineColumn_lt_iff p⟩
  · rw [lineColumn_nearest, lineAt, columnAt, Nat.add_comm 1, Nat.add_comm 1]
  · rw [back, lineColumn_nearest, lineColumn_nearest, clamp_clamp]

end SourceText

/-! ## Bytes -/

/-- A character takes at least one byte. -/
theorem utf8Len_pos {cs : List Char} (ne : cs ≠ []) : 0 < String.utf8Len cs := by
  cases cs with
  | nil => exact absurd rfl ne
  | cons c cs =>
    rw [String.utf8Len_cons]
    exact Nat.add_pos_right _ c.utf8Size_pos

/-- The piece of a text between two of its positions; nothing if they are not in order. -/
def pieceBetween (cs : List Char) (i j : Nat) : List Char := (cs.take j).drop i

/-- What is before a later position is what is before an earlier one and the piece between them. -/
theorem take_eq_piece (cs : List Char) {i j : Nat} (h : i ≤ j) :
    cs.take j = cs.take i ++ pieceBetween cs i j := by
  have split := List.take_append_drop i (cs.take j)
  rw [List.take_take, Nat.min_eq_left h] at split
  exact split.symm

/-- Later positions are behind more bytes. -/
theorem bytesBefore_strictMono (cs : List Char) :
    StrictMonoOn (bytesBefore cs) {i | i ≤ cs.length} := by
  intro i hi j hj less
  have hj : j ≤ cs.length := hj
  have ne : pieceBetween cs i j ≠ [] := by
    rw [pieceBetween, Ne, List.drop_eq_nil_iff, List.length_take]
    omega
  rw [bytesBefore_eq, bytesBefore_eq, take_eq_piece cs (Nat.le_of_lt less),
    String.utf8Len_append]
  exact Nat.lt_add_of_pos_right (utf8Len_pos ne)

/-- The encoded text is cut where its characters are. -/
theorem extract_utf8 (cs : List Char) (i j : Nat) :
    (String.ofList cs).toUTF8.extract (bytesBefore cs i) (bytesBefore cs j) =
      (String.ofList (pieceBetween cs i j)).toUTF8 := by
  have size : ∀ k, bytesBefore cs k = (cs.take k).utf8Encode.size := by
    intro k
    rw [bytesBefore, String.utf8ByteSize, String.toByteArray_ofList]
  rw [String.toUTF8, String.toUTF8, String.toByteArray_ofList, String.toByteArray_ofList]
  rcases Nat.le_total i j with le | ge
  · -- what is before the piece, the piece, and what is behind it are encoded one after another
    have whole : cs.utf8Encode =
        (cs.take i).utf8Encode ++ (pieceBetween cs i j).utf8Encode ++ (cs.drop j).utf8Encode := by
      rw [← List.utf8Encode_append, ← take_eq_piece cs le, ← List.utf8Encode_append,
        List.take_append_drop]
    rw [whole, size, size, take_eq_piece cs le, List.utf8Encode_append,
      ByteArray.extract_append_size_left]
    exact ByteArray.extract_append_eq_right rfl ByteArray.size_append
  · have empty : pieceBetween cs i j = [] := by
      rw [pieceBetween, List.drop_eq_nil_iff, List.length_take]
      omega
    rw [empty, List.utf8Encode_nil, ByteArray.extract_eq_empty_iff]
    exact Nat.le_trans (Nat.min_le_left _ _) (bytesBefore_mono cs ge)

namespace SourceText

variable (s : SourceText)

/-- The table of all offsets has the offset of every position, whether it is kept or not. -/
theorem byteOffsets_getElem? (p : Int) :
    (byteOffsetsFrom 0 s.chars)[s.clamp p]? = some (s.byteOffset p) := by
  rw [byteOffsetsFrom_getElem? _ _ _ (s.clamp_le p), byteOffset_nearest, bytesBefore_eq,
    Nat.zero_add]

theorem byteOffset_lt_iff (p q : Int) :
    s.byteOffset p < s.byteOffset q ↔ s.clamp p < s.clamp q := by
  rw [byteOffset_nearest, byteOffset_nearest]
  exact (bytesBefore_strictMono s.chars).lt_iff_lt (s.clamp_le p) (s.clamp_le q)

/-- Every integer has the byte offset that the characters before it take, whether the table of
offsets is kept or not. Offsets are in the order of positions, and those of a span cut the encoded
text where the piece between its positions is. -/
theorem byteOffset_laws (p q : Int) :
    s.byteOffset p = (String.ofList (s.chars.take (s.clamp p))).toUTF8.size ∧
    (byteOffsetsFrom 0 s.chars)[s.clamp p]? = some (s.byteOffset p) ∧
    (s.byteOffset p < s.byteOffset q ↔ s.clamp p < s.clamp q) ∧
    s.text.toUTF8.extract (s.spanBetween p q).offset (s.spanBetween p q).endOffset =
      (String.ofList ((s.chars.take (s.clamp q)).drop (s.clamp p))).toUTF8 := by
  refine ⟨s.byteOffset_nearest p, s.byteOffsets_getElem? p, s.byteOffset_lt_iff p q, ?_⟩
  show s.text.toUTF8.extract (s.byteOffset p) (s.byteOffset q) = _
  rw [byteOffset_nearest, byteOffset_nearest]
  exact extract_utf8 s.chars _ _

end SourceText

end Wdl
