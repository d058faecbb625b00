import Mathlib.Data.List.Induction
import Mathlib.Data.String.Basic
import Wdl.Text.Source

/-!
# Wdl.Proofs.Positions -- positions by counting

The tables of a source text are a faster way to count. Here the line, the column and the byte offset
of a position are counted from the start of the text, and the tables, with the binary search in
them, are shown to give the same. A byte offset cuts the encoded text where the position cuts the
characters.

* `lineAt`, `columnAt` and `bytesBefore` count.
* `SourceText.byteOffset_eq`: the table of offsets, which is kept only for texts that are not all
  ASCII, gives `bytesBefore` in either case.
* `searchLine_eq` is the invariant of the binary search: the line starts at most the position are
  the first `k`, with `lo` among them and `hi` not. `lineStarts_le_iff` provides it, and
  `lineColumn_eq` is the result.
* `Span.Denotes` relates a span to two positions; `SourceText.span_denotes` and
  `SourceText.piece_eq` are what other modules use.
-/

namespace Wdl

/-! ## Counting -/

/-- The line of a position: one more than there are line feeds before it. -/
def lineAt (cs : List Char) (i : Nat) : Nat := (cs.take i).count '\n' + 1

/-- The column of a position: one more than there are characters between it and the line feed
before it. -/
def columnAt (cs : List Char) (i : Nat) : Nat :=
  ((cs.take i).reverse.takeWhile (· != '\n')).length + 1

/-- The bytes that the characters before a position take in UTF-8. -/
def bytesBefore (cs : List Char) (i : Nat) : Nat := (String.ofList (cs.take i)).utf8ByteSize

theorem bytesBefore_eq (cs : List Char) (i : Nat) :
    bytesBefore cs i = String.utf8Len (cs.take i) := String.utf8ByteSize_ofList _

/-- More characters take no fewer bytes. -/
theorem bytesBefore_mono (cs : List Char) {i j : Nat} (h : i ≤ j) :
    bytesBefore cs i ≤ bytesBefore cs j := by
  rw [bytesBefore_eq, bytesBefore_eq]
  exact String.utf8Len_le_of_prefix (List.take_prefix_take_left h)

theorem bytesBefore_le (cs : List Char) (i : Nat) :
    bytesBefore cs i ≤ (String.ofList cs).utf8ByteSize := by
  rw [bytesBefore_eq, String.utf8ByteSize_ofList]
  exact String.utf8Len_le_of_prefix (List.take_prefix i cs)

/-! ## Byte offsets -/

/-- The table has one entry for each position, the end included. -/
theorem byteOffsetsFrom_getElem? (cs : List Char) (at_ i : Nat) (h : i ≤ cs.length) :
    (byteOffsetsFrom at_ cs)[i]? = some (at_ + String.utf8Len (cs.take i)) := by
  induction cs generalizing at_ i with
  | nil =>
    obtain rfl : i = 0 := by simpa using h
    rfl
  | cons c cs ih =>
    cases i with
    | zero => rfl
    | succ i =>
      have hi : i ≤ cs.length := by simpa using h
      simp only [byteOffsetsFrom, List.getElem?_cons_succ, ih _ i hi, List.take_succ_cons,
        String.utf8Len_cons]
      congr 1
      omega

theorem utf8Size_of_isAscii {c : Char} (h : isAscii c = true) : c.utf8Size = 1 := by
  have small : c.toNat < 128 := by simpa [isAscii] using h
  rw [Char.utf8Size_eq_one_iff, UInt32.le_iff_toNat_le]
  exact Nat.le_of_lt_succ small

theorem utf8Len_of_ascii {cs : List Char} (h : cs.all isAscii = true) :
    String.utf8Len cs = cs.length := by
  induction cs with
  | nil => rfl
  | cons c cs ih =>
    simp only [List.all_cons, Bool.and_eq_true] at h
    rw [String.utf8Len_cons, ih h.2, utf8Size_of_isAscii h.1, List.length_cons]

namespace SourceText

theorem clamp_of_le (s : SourceText) {i : Nat} (h : i ≤ s.chars.length) : s.clamp i = i := by
  simp [clamp, s.length_eq, h]

/-- The byte offset of a position is the length of what is before it. -/
theorem byteOffset_eq (s : SourceText) {i : Nat} (h : i ≤ s.chars.length) :
    s.byteOffset i = bytesBefore s.chars i := by
  rw [byteOffset, bytesBefore_eq, s.byteTable_eq, s.clamp_of_le h, byteTableOf]
  by_cases ascii : s.chars.all isAscii = true
  · have ascii' : (s.chars.take i).all isAscii = true :=
      List.all_eq_true.2 fun c hc => List.all_eq_true.1 ascii c (List.mem_of_mem_take hc)
    simp [ascii, utf8Len_of_ascii ascii', h]
  · simp [ascii, byteOffsetsFrom_getElem? s.chars 0 i h]

end SourceText

/-! ## Lines and columns -/

/-- Line starts are found piece by piece. -/
theorem lineStartsFrom_append (xs ys : List Char) (at_ : Nat) :
    lineStartsFrom at_ (xs ++ ys) =
      lineStartsFrom at_ xs ++ lineStartsFrom (at_ + xs.length) ys := by
  induction xs generalizing at_ with
  | nil => rfl
  | cons c xs ih =>
    have shift : at_ + 1 + xs.length = at_ + (xs.length + 1) := by omega
    by_cases h : c = '\n' <;> simp [lineStartsFrom, h, ih, shift]

/-- There are as many line starts behind the first as there are line feeds. -/
theorem length_lineStartsFrom (cs : List Char) (at_ : Nat) :
    (lineStartsFrom at_ cs).length = cs.count '\n' := by
  induction cs generalizing at_ with
  | nil => rfl
  | cons c cs ih => by_cases h : c = '\n' <;> simp [lineStartsFrom, h, ih]

/-- A line starts behind a line feed of the text. -/
theorem lineStartsFrom_bounds {cs : List Char} {at_ p : Nat} (h : p ∈ lineStartsFrom at_ cs) :
    at_ < p ∧ p ≤ at_ + cs.length := by
  induction cs generalizing at_ with
  | nil => simp [lineStartsFrom] at h
  | cons c cs ih =>
    have tail : p ∈ lineStartsFrom (at_ + 1) cs → at_ < p ∧ p ≤ at_ + (cs.length + 1) := by
      intro hp
      have := ih hp
      omega
    rw [List.length_cons]
    by_cases hc : c = '\n'
    · rw [lineStartsFrom, if_pos hc] at h
      rcases List.mem_cons.1 h with rfl | h
      · omega
      · exact tail h
    · rw [lineStartsFrom, if_neg hc] at h
      exact tail h

/-- The last line start of a text is behind its last line feed. -/
theorem getLast_lineStarts (cs : List Char) (at_ : Nat) :
    (at_ :: lineStartsFrom at_ cs).getLast (List.cons_ne_nil _ _) +
      (cs.reverse.takeWhile (· != '\n')).length = at_ + cs.length := by
  induction cs using List.reverseRecOn with
  | nil => simp [lineStartsFrom]
  | append_singleton cs c ih =>
    by_cases h : c = '\n'
    · simp [lineStartsFrom_append, lineStartsFrom, h]
      omega
    · simp [lineStartsFrom_append, lineStartsFrom, h] at ih ⊢
      omega

namespace SourceText

/-- The search ends at the last line start that is at most the position: the line starts at most
the position are the first `k` of them. -/
theorem searchLine_eq (starts : Array Nat) (q k lo hi : Nat)
    (cut : ∀ i, i < starts.size → (starts.getD i 0 ≤ q ↔ i < k)) (hlo : lo < k) (hhi : k ≤ hi)
    (size : hi ≤ starts.size) : searchLine starts q lo hi + 1 = k := by
  induction lo, hi using searchLine.induct starts q with
  | case1 lo hi wide mid below ih =>
    have hmid : mid < starts.size := by omega
    rw [searchLine, if_pos wide, if_pos below]
    exact ih ((cut mid hmid).1 below) hhi size
  | case2 lo hi wide mid above ih =>
    have hmid : mid < starts.size := by omega
    have : ¬ mid < k := fun h => above ((cut mid hmid).2 h)
    rw [searchLine, if_pos wide, if_neg above]
    exact ih hlo (by omega) (by omega)
  | case3 lo hi narrow =>
    rw [searchLine, if_neg narrow]
    omega

/-- The line starts, those at most a position apart from those behind it. -/
theorem lineStarts_split (s : SourceText) (i : Nat) :
    s.lineStarts.toList =
      (0 :: lineStartsFrom 0 (s.chars.take i)) ++ lineStartsFrom (s.chars.take i).length
        (s.chars.drop i) := by
  rw [s.lineStarts_eq, lineStartsOf, List.cons_append, ← Nat.zero_add (s.chars.take i).length,
    ← lineStartsFrom_append, List.take_append_drop]

variable (s : SourceText) {i : Nat}

theorem lineStarts_size_le : lineAt s.chars i ≤ s.lineStarts.size := by
  rw [← Array.length_toList, s.lineStarts_split i, List.length_append, List.length_cons,
    length_lineStartsFrom, lineAt]
  exact Nat.le_add_right _ _

/-- Exactly the line starts up to the line of a position are at most the position. -/
theorem lineStarts_le_iff (h : i ≤ s.chars.length) (j : Nat) (hj : j < s.lineStarts.size) :
    s.lineStarts.getD j 0 ≤ i ↔ j < lineAt s.chars i := by
  have hlen : (s.chars.take i).length = i := by simp [h]
  have hsplit := s.lineStarts_split i
  have hcount : (0 :: lineStartsFrom 0 (s.chars.take i)).length = lineAt s.chars i := by
    simp [length_lineStartsFrom, lineAt]
  have hj' : j < s.lineStarts.toList.length := by simpa using hj
  have get : s.lineStarts.toList[j]? = some (s.lineStarts.getD j 0) := by
    simp [Array.getD_eq_getD_getElem?, hj]
  rw [← hcount]
  rw [hsplit] at get hj'
  by_cases hlt : j < (0 :: lineStartsFrom 0 (s.chars.take i)).length
  · rw [List.getElem?_append_left hlt] at get
    refine iff_of_true ?_ hlt
    rcases List.mem_cons.1 (List.mem_of_getElem? get) with zero | mem
    · omega
    · have := (lineStartsFrom_bounds mem).2
      omega
  · rw [List.getElem?_append_right (Nat.le_of_not_lt hlt)] at get
    have behind := (lineStartsFrom_bounds (List.mem_of_getElem? get)).1
    exact iff_of_false (by omega) hlt

/-- The line of a position starts where the characters of its column start. -/
theorem lineStart_add_column (h : i ≤ s.chars.length) :
    s.lineStarts.getD (lineAt s.chars i - 1) 0 + columnAt s.chars i = i + 1 := by
  have hlast := getLast_lineStarts (s.chars.take i) 0
  have get : s.lineStarts.getD (lineAt s.chars i - 1) 0 =
      (0 :: lineStartsFrom 0 (s.chars.take i)).getLast (List.cons_ne_nil _ _) := by
    have hlt : lineAt s.chars i - 1 < (0 :: lineStartsFrom 0 (s.chars.take i)).length := by
      simp [length_lineStartsFrom, lineAt]
    have at_last : (0 :: lineStartsFrom 0 (s.chars.take i)).length - 1 =
        lineAt s.chars i - 1 := by
      simp [length_lineStartsFrom, lineAt]
    have hget : s.lineStarts.toList[lineAt s.chars i - 1]? =
        some ((0 :: lineStartsFrom 0 (s.chars.take i)).getLast (List.cons_ne_nil _ _)) := by
      rw [s.lineStarts_split i, List.getElem?_append_left hlt, ← at_last,
        ← List.getLast?_eq_getElem?, List.getLast?_eq_some_getLast]
    rw [Array.getD_eq_getD_getElem?, ← Array.getElem?_toList, hget, Option.getD_some]
  rw [get, columnAt]
  simp only [List.length_take, Nat.min_eq_left h] at hlast
  omega

/-- Line and column of a position are those that counting gives. -/
theorem lineColumn_eq (h : i ≤ s.chars.length) :
    s.lineColumn i = (lineAt s.chars i, columnAt s.chars i) := by
  have hpos : 0 < lineAt s.chars i := Nat.succ_pos _
  have hline := searchLine_eq s.lineStarts i (lineAt s.chars i) 0 s.lineStarts.size
    (s.lineStarts_le_iff h) hpos s.lineStarts_size_le (Nat.le_refl _)
  have hcolumn := s.lineStart_add_column h
  have hindex : searchLine s.lineStarts i 0 s.lineStarts.size = lineAt s.chars i - 1 := by omega
  have hpos' : 0 < columnAt s.chars i := Nat.succ_pos _
  simp only [lineColumn, s.clamp_of_le h, hindex, Prod.mk.injEq]
  exact ⟨by omega, by omega⟩

/-- Line and column of a position lead back to it. -/
theorem charPos_lineColumn (h : i ≤ s.chars.length) :
    s.charPos (lineAt s.chars i) (columnAt s.chars i) = i := by
  have hcolumn := s.lineStart_add_column h
  have hsize := s.lineStarts_size_le (i := i)
  have hpos : 0 < lineAt s.chars i := Nat.succ_pos _
  have hpos' : 0 < columnAt s.chars i := Nat.succ_pos _
  have hline : (max 1 (min (lineAt s.chars i : Int) s.lineStarts.size) - 1).toNat =
      lineAt s.chars i - 1 := by omega
  have hcol : (max (columnAt s.chars i : Int) 1 - 1).toNat = columnAt s.chars i - 1 := by omega
  simp only [charPos, hline, hcol]
  omega

end SourceText

/-! ## Spans -/

/-- A span that denotes two positions of a text, by its lines and columns as well as by its
offsets. -/
structure Span.Denotes (span : Span) (cs : List Char) (i j : Nat) : Prop where
  start_le : i ≤ j
  stop_le : j ≤ cs.length
  line_eq : span.line = lineAt cs i
  column_eq : span.column = columnAt cs i
  endLine_eq : span.endLine = lineAt cs j
  endColumn_eq : span.endColumn = columnAt cs j
  offset_eq : span.offset = bytesBefore cs i
  endOffset_eq : span.endOffset = bytesBefore cs j

/-- The span of a range in the text denotes the two ends of the range. -/
theorem SourceText.span_denotes (s : SourceText) {r : Range} (ordered : r.start ≤ r.stop)
    (inside : r.stop ≤ s.chars.length) : (s.span r).Denotes s.chars r.start r.stop := by
  have inside' : r.start ≤ s.chars.length := Nat.le_trans ordered inside
  constructor
  · exact ordered
  · exact inside
  all_goals simp [span, spanBetween, s.lineColumn_eq inside, s.lineColumn_eq inside',
    s.byteOffset_eq inside, s.byteOffset_eq inside']

/-- The piece of a text between the two offsets of a span. -/
def SourceText.piece (s : SourceText) (span : Span) : String :=
  String.Pos.Raw.extract s.text ⟨span.offset⟩ ⟨span.endOffset⟩

/-- The offsets of a span cut out what is between the positions that it denotes. -/
theorem SourceText.piece_eq (s : SourceText) {span : Span} {i j : Nat}
    (h : span.Denotes s.chars i j) :
    s.piece span = String.ofList ((s.chars.drop i).take (j - i)) := by
  have before : s.chars.take j = s.chars.take i ++ (s.chars.drop i).take (j - i) := by
    rw [← List.take_add, Nat.add_sub_cancel' h.start_le]
  have valid := String.extract_of_valid (s.chars.take i) ((s.chars.drop i).take (j - i))
    (s.chars.drop j)
  rw [← before, List.take_append_drop, ← String.utf8Len_append, ← before] at valid
  rw [piece, text, h.offset_eq, h.endOffset_eq, bytesBefore_eq, bytesBefore_eq, valid]

end Wdl
