import Mathlib.Algebra.Group.Nat.Defs
import Wdl.Proofs.Filling

/-!
# Wdl.Proofs.LiteralFiles -- files in which nothing stands for something else

No step on the way from the bytes of a file to the values of its options makes a percent sign: a
byte above 127 is never read as one, cutting and trimming only take characters away, and the lines
of a value are joined with line feeds. So a layer that is read from a file without percent signs has
literal values only, and each of them can be read as it is written.

* `percent_of_readChar` and `percent_of_decodeFrom` are about the decoding of bytes: a character of
  several bytes has a code above 127 (`le_payload`), so a percent sign comes from its own byte.
* `linesOf_literal`, `option?_literal` and `joinValue_literal` follow the characters through lines
  and values.
* `Draft.Literal` is the invariant of reading a file line by line, with one lemma for each thing a
  line may do, and `Layer.Literal` is the result for a layer.
* `Layer.ofBytes_literal` puts the two together, and `Files.mem_of_read` says that what is read from
  a path is the content of a file.
-/

namespace Wdl

namespace Utf8

/-- The byte of the percent sign. -/
def percent : UInt8 := 0x25

/-! ## Characters -/

/-- Continuation bytes only make a payload greater. -/
theorem le_readTail {count payload : Nat} {bytes : List UInt8} {code : Nat}
    (read : readTail count payload bytes = (code, 0)) : payload * 0x40 ^ count ≤ code := by
  induction count generalizing payload bytes with
  | zero =>
    rw [readTail] at read
    cases read
    simp
  | succ count ih =>
    cases bytes with
    | nil => simp [readTail] at read
    | cons b rest =>
      rw [readTail] at read
      split at read
      · have less := ih read
        have more : payload * 0x40 * 0x40 ^ count ≤
            (payload * 0x40 + b.toNat % 0x40) * 0x40 ^ count :=
          Nat.mul_le_mul_right _ (Nat.le_add_right _ _)
        rw [Nat.pow_succ', ← Nat.mul_assoc]
        omega
      · simp at read

/-- The shortest form of a character of several bytes is its only form, so it is not of ASCII. -/
theorem le_payload {b second : UInt8} {lead : Lead} (h : lead? b = some lead)
    (low : lead.low ≤ second.toNat) (high : second.toNat ≤ lead.high) :
    0x80 ≤ (leadPayload lead.rest b * 0x40 + second.toNat % 0x40) * 0x40 ^ lead.rest := by
  unfold lead? at h
  dsimp only at h
  split at h
  · cases h
  · split at h
    · -- two bytes
      cases h
      simp only [leadPayload]
      omega
    · split at h
      · -- three bytes, of which the second cannot be low after the least first one
        cases h
        simp only [leadPayload] at low high ⊢
        split at low
        · split at high
          · omega
          · omega
        · split at high
          · omega
          · omega
      · split at h
        · -- four bytes, in the same way
          cases h
          simp only [leadPayload] at low high ⊢
          split at low
          · split at high
            · omega
            · omega
          · split at high
            · omega
            · omega
        · cases h

/-- A number that stands for a character is its number; other numbers stand for NUL. -/
theorem toNat_of_ofNat {n : Nat} {c : Char} (eq : Char.ofNat n = c) (other : c ≠ '\x00') :
    c.toNat = n := by
  by_cases valid : n.isValidChar
  · rw [Char.ofNat, dif_pos valid] at eq
    rw [← eq]
    rfl
  · rw [Char.ofNat, dif_neg valid] at eq
    exact absurd eq.symm other

/-- Only its own byte is read as a percent sign. -/
theorem percent_of_readChar {b : UInt8} {rest : List UInt8} {width : Nat}
    (read : readChar b rest = .char '%' width) : b = percent := by
  unfold readChar at read
  split at read
  · rename_i ascii
    have eq := toNat_of_ofNat (Step.char.inj read).1 (by decide)
    exact UInt8.toNat_inj.1 eq.symm
  · split at read
    · cases read
    · rename_i lead hlead
      split at read
      · cases read
      · rename_i second tail
        split at read
        · cases read
        · rename_i inside
          rw [not_or] at inside
          -- the code of a character of several bytes is too great for a percent sign
          have large := le_payload hlead (show lead.low ≤ second.toNat by omega) (by omega)
          dsimp only at read
          generalize tailRead : readTail _ _ _ = result at read
          obtain ⟨code, missing⟩ := result
          dsimp only at read
          split at read
          · rename_i whole
            subst whole
            have more := le_readTail tailRead
            have same := toNat_of_ofNat (Step.char.inj read).1 (by decide)
            have ascii : code = 0x25 := same.symm
            omega
          · cases read

/-- A percent sign among the characters comes from one among the bytes. -/
theorem percent_of_decodeFrom {position skip : Nat} {bytes : List UInt8}
    (h : '%' ∈ (decodeFrom position skip bytes).chars) : percent ∈ bytes := by
  induction bytes generalizing position skip with
  | nil => simp [decodeFrom] at h
  | cons b rest ih =>
    cases skip with
    | succ skip => exact List.mem_cons_of_mem _ (ih h)
    | zero =>
      rw [decodeFrom] at h
      split at h
      · rename_i c width read
        rw [List.mem_cons] at h
        rcases h with rfl | h
        · rw [percent_of_readChar read]
          exact List.mem_cons_self
        · exact List.mem_cons_of_mem _ (ih h)
      · simp at h

end Utf8

/-! ## Lines -/

/-- The pieces of a text have no characters but those of the text. -/
theorem Path.mem_of_cut {mark c : Char} {cs piece : List Char} (hp : piece ∈ cut mark cs)
    (hc : c ∈ piece) : c ∈ cs := by
  induction cs generalizing piece with
  | nil =>
    rw [cut, List.mem_singleton] at hp
    exact hp ▸ hc
  | cons d rest ih =>
    rw [cut] at hp
    split at hp
    · rw [List.mem_cons] at hp
      rcases hp with rfl | hp
      · cases hc
      · exact List.mem_cons_of_mem _ (ih hp hc)
    · split at hp
      · rename_i first more eq
        rw [List.mem_cons] at hp
        rcases hp with rfl | hp
        · rw [List.mem_cons] at hc
          rcases hc with rfl | hc
          · exact List.mem_cons_self
          · exact List.mem_cons_of_mem _ (ih (eq ▸ List.mem_cons_self) hc)
        · exact List.mem_cons_of_mem _ (ih (eq ▸ List.mem_cons_of_mem _ hp) hc)
      · rw [List.mem_singleton.1 hp, List.mem_singleton] at hc
        rw [hc]
        exact List.mem_cons_self

/-- Trimming only takes characters away. -/
theorem trim_subset (cs : List Char) : trim cs ⊆ cs := by
  have trimEnd_subset : ∀ cs : List Char, trimEnd cs ⊆ cs := by
    intro cs c hc
    rw [trimEnd, List.mem_reverse] at hc
    exact List.mem_reverse.1 (List.dropWhile_subset _ hc)
  exact fun c hc => List.dropWhile_subset _ (trimEnd_subset _ hc)

/-! ## Contents -/

/-- What is read from a path is the content of some file. -/
theorem Files.mem_of_read {f : Files} {path : String} {bytes : List UInt8}
    (read : f.read path = .ok bytes) : ∃ entry ∈ f.entries, entry.2 = bytes := by
  -- a path is followed step by step, up to a file at its last one
  have followed : ∀ {place steps}, f.follow place steps = .ok bytes →
      ∃ entry ∈ f.entries, entry.2 = bytes := by
    intro place steps
    induction steps generalizing place with
    | nil =>
      intro h
      cases h
    | cons step rest ih =>
      intro h
      rw [follow] at h
      split at h
      · exact ih h
      · split at h
        · exact ih h
        · split at h
          · cases h
          · dsimp only at h
            split at h
            · exact ih h
            · split at h
              · cases h
              · rename_i content found
                split at h
                · cases h
                  obtain ⟨before, after, eq, -⟩ := List.lookup_eq_some_iff.1 found
                  exact ⟨(place ++ [step], bytes), by simp [eq], rfl⟩
                · cases h
  unfold Files.read at read
  split at read
  · cases read
  · split at read
    · cases read
    · split at read
      · cases read
      · exact followed read

namespace Config

open Layer (IsLiteral)

/-- Making line ends plain adds nothing but line feeds. -/
theorem mem_plainLineEnds {c : Char} (other : c ≠ '\n') {cs : List Char}
    (h : c ∈ Layer.plainLineEnds cs) : c ∈ cs := by
  induction cs using Layer.plainLineEnds.induct with
  | case1 rest ih =>
    rw [Layer.plainLineEnds, List.mem_cons] at h
    exact List.mem_cons_of_mem _ (List.mem_cons_of_mem _ (ih (h.resolve_left other)))
  | case2 rest _ ih =>
    rw [Layer.plainLineEnds, List.mem_cons] at h
    · exact List.mem_cons_of_mem _ (ih (h.resolve_left other))
    · assumption
  | case3 d rest _ _ ih =>
    rw [Layer.plainLineEnds, List.mem_cons] at h
    · exact List.mem_cons.2 (h.imp_right ih)
    · assumption
    · assumption
  | case4 => exact h

/-- The lines of a text have no characters but those of the text. -/
theorem linesOf_literal {cs : List Char} (literal : '%' ∉ cs) :
    (∀ line ∈ (Layer.linesOf cs).1, IsLiteral line) ∧ IsLiteral (Layer.linesOf cs).2 := by
  have piece : ∀ p ∈ Path.cut '\n' cs, '%' ∉ p := fun p hp hc => literal (Path.mem_of_cut hp hc)
  refine ⟨?_, ?_⟩
  · simp only [Layer.linesOf, List.forall_mem_map]
    intro p hp hc
    simp only [String.toList_ofList, List.mem_append, List.mem_singleton] at hc
    exact piece p (List.dropLast_subset _ hp) (hc.resolve_right (by decide))
  · unfold Layer.linesOf IsLiteral
    rw [String.toList_ofList]
    cases last : (Path.cut '\n' cs).getLast? with
    | none => exact List.not_mem_nil
    | some p => exact piece p (List.mem_of_getLast? last)

/-! ## Drafts

A draft keeps the lines of each value until the file is read. A line continues a value, opens a
section or sets an option; each adds at most a part of the line. -/

/-- Options that are being read, with literal lines. -/
def LiteralDraft (options : DraftOptions) : Prop := ∀ o ∈ options, ∀ line ∈ o.2, IsLiteral line

namespace Draft

/-- All lines of values that have been read are literal. -/
structure Literal (d : Draft) : Prop where
  shared : LiteralDraft d.shared
  sections : ∀ s ∈ d.sections, LiteralDraft s.2

theorem Literal.start : start.Literal := ⟨fun _ h => (nomatch h), fun _ h => (nomatch h)⟩

theorem Literal.mapOptions {d : Draft} (literal : d.Literal) (sec : String)
    {f : DraftOptions → DraftOptions}
    (keeps : ∀ options, LiteralDraft options → LiteralDraft (f options)) :
    (d.mapOptions sec f).Literal := by
  unfold Draft.mapOptions
  split
  · exact ⟨keeps _ literal.shared, literal.sections⟩
  · refine ⟨literal.shared, ?_⟩
    simp only [List.forall_mem_map]
    intro s hs
    split
    · exact keeps _ (literal.sections s hs)
    · exact literal.sections s hs

theorem Literal.continueValue {d : Draft} (literal : d.Literal) {line : String}
    (h : IsLiteral line) : (d.continueValue line).Literal := by
  unfold Draft.continueValue
  split
  · refine literal.mapOptions _ fun options hoptions => ?_
    unfold LiteralDraft
    simp only [List.forall_mem_map]
    intro o ho
    split
    · rw [List.forall_mem_append, List.forall_mem_singleton]
      exact ⟨hoptions o ho, h⟩
    · exact hoptions o ho
  · exact literal

theorem Literal.openSection {d d' : Draft} (literal : d.Literal) {file : String} {number : Nat}
    {sec : String} (opened : d.openSection file number sec = .ok d') : d'.Literal := by
  unfold Draft.openSection at opened
  split at opened
  · cases opened
  · cases opened
    refine ⟨literal.shared, ?_⟩
    dsimp only
    split
    · exact literal.sections
    · rw [List.forall_mem_append, List.forall_mem_singleton]
      exact ⟨literal.sections, by simp [LiteralDraft]⟩

/-- The value on a line is a part of it. -/
theorem option?_literal {cs : List Char} (literal : '%' ∉ cs) {name value : String}
    (h : option? cs = some (name, value)) : IsLiteral value := by
  unfold option? at h
  dsimp only at h
  split at h
  · rename_i mark rest behind
    cases h
    intro hc
    rw [String.toList_ofList] at hc
    apply literal
    apply List.mem_of_mem_drop (i := (cs.takeWhile fun c => !isMark c).length)
    rw [behind]
    exact List.mem_cons_of_mem _ (trim_subset _ hc)
  · cases h

theorem Literal.setOption {d d' : Draft} (literal : d.Literal) {file : String} {number : Nat}
    {sec line : String} (h : IsLiteral line) (set : d.setOption file number sec line = .ok d') :
    d'.Literal := by
  unfold Draft.setOption at set
  split at set
  · cases set
    exact ⟨literal.shared, literal.sections⟩
  · rename_i name value eq
    have hvalue : IsLiteral value := option?_literal (fun hc => h (trim_subset _ hc)) eq
    extract_lets noted key at set
    have before : noted.Literal := by
      unfold noted
      split
      · exact ⟨literal.shared, literal.sections⟩
      · exact literal
    split at set
    · cases set
    · cases set
      have added := before.mapOptions sec (f := (· ++ [(key, [value])])) fun options hoptions => by
        unfold LiteralDraft
        rw [List.forall_mem_append, List.forall_mem_singleton]
        exact ⟨hoptions, by simpa using hvalue⟩
      exact ⟨added.shared, added.sections⟩

/-- Reading a literal line adds nothing but literal lines to values. -/
theorem Literal.readLine {d d' : Draft} (literal : d.Literal) {file : String} {number : Nat}
    {line : String} (h : IsLiteral line) (read : d.readLine file number line = .ok d') :
    d'.Literal := by
  unfold Draft.readLine at read
  dsimp only at read
  split at read
  · cases read
    exact literal
  · split at read
    · cases read
      exact literal.continueValue (by simp [IsLiteral])
    · split at read
      · cases read
        refine literal.continueValue fun hc => h ?_
        rw [String.toList_ofList] at hc
        exact trim_subset _ hc
      · -- Only the indentation of the line is noted before it is read as a header or an option.
        have noted : { d with depth := (line.toList.takeWhile isBlank).length }.Literal :=
          ⟨literal.shared, literal.sections⟩
        split at read
        · exact noted.openSection read
        · cases read
        · exact noted.setOption h read

theorem Literal.readLines {d d' : Draft} (literal : d.Literal) {file : String} {number : Nat}
    {lines : List String} (h : ∀ line ∈ lines, IsLiteral line)
    (read : d.readLines file number lines = .ok d') : d'.Literal := by
  induction lines generalizing d number with
  | nil =>
    cases read
    exact literal
  | cons line lines ih =>
    rw [List.forall_mem_cons] at h
    rw [Draft.readLines] at read
    cases first : d.readLine file number line with
    | error fault => simp [first, bind, Except.bind] at read
    | ok next =>
      rw [first] at read
      exact ih (literal.readLine h.1 first) h.2 read

/-- Lines joined with line feeds have no percent signs if none of them has. -/
theorem joinValue_literal {lines : List String} (h : ∀ line ∈ lines, IsLiteral line) :
    IsLiteral (joinValue lines) := by
  have joined : '%' ∉ ("\n".intercalate lines).toList := by
    rw [String.toList_intercalate]
    induction lines with
    | nil => exact List.not_mem_nil
    | cons line lines ih =>
      rw [List.forall_mem_cons] at h
      cases lines with
      | nil => simpa [IsLiteral] using h.1
      | cons next lines =>
        rw [List.map_cons, List.map_cons, List.intercalate_cons_cons, List.mem_append,
          List.mem_append, not_or, not_or]
        exact ⟨⟨h.1, by decide⟩, ih h.2⟩
  intro hc
  rw [joinValue, String.toList_ofList, trimEnd, List.mem_reverse] at hc
  exact joined (List.mem_reverse.1 (List.dropWhile_subset _ hc))

end Draft

/-! ## Layers -/

namespace Layer

/-- All values of a layer are literal. -/
structure Literal (l : Layer) : Prop where
  shared : ∀ o ∈ l.shared, IsLiteral o.2
  sections : ∀ s ∈ l.sections, ∀ o ∈ s.2, IsLiteral o.2

theorem Literal.empty : empty.Literal := ⟨by simp [Layer.empty], by simp [Layer.empty]⟩

/-- Plain values are literal. -/
theorem Plain.literal {l : Layer} (plain : l.Plain) : l.Literal :=
  ⟨plain.shared.literal, fun s hs => (plain.sections s hs).literal⟩

end Layer

theorem Draft.Literal.finish {d : Draft} (literal : d.Literal) {file : String} {l : Layer}
    (finished : d.finish file = .ok l) : l.Literal := by
  have each : ∀ options, LiteralDraft options → ∀ o ∈ Draft.finishOptions options,
      IsLiteral o.2 := by
    intro options h
    unfold Draft.finishOptions
    rw [List.forall_mem_map]
    exact fun o ho => Draft.joinValue_literal (h o ho)
  unfold Draft.finish at finished
  split at finished
  · cases finished
    refine ⟨each _ literal.shared, ?_⟩
    simp only [List.forall_mem_map]
    exact fun s hs => each _ (literal.sections s hs)
  · cases finished

/-- A file without percent signs is read as a layer of literal values. -/
theorem Layer.ofBytes_literal {file : String} {bytes : List UInt8} (h : Utf8.percent ∉ bytes)
    {l : Layer} (read : ofBytes file bytes = .ok l) : l.Literal := by
  have chars : '%' ∉ plainLineEnds (Utf8.decode bytes).chars := fun hc =>
    h (Utf8.percent_of_decodeFrom (mem_plainLineEnds (by decide) hc))
  obtain ⟨lines, last⟩ := linesOf_literal chars
  unfold ofBytes at read
  dsimp only at read
  split at read
  · generalize hall :
      (if (linesOf (plainLineEnds (Utf8.decode bytes).chars)).2 = "" then _ else _) = all at read
    have literal : ∀ line ∈ all, IsLiteral line := by
      rw [← hall]
      split
      · exact lines
      · rw [List.forall_mem_append, List.forall_mem_singleton]
        exact ⟨lines, last⟩
    cases drafted : Draft.start.readLines file 1 all with
    | error fault => simp [drafted, bind, Except.bind] at read
    | ok d =>
      rw [drafted] at read
      exact (Draft.Literal.start.readLines literal drafted).finish read
  · split at read
    · cases drafted : Draft.start.readLines file 1
          (linesOf (plainLineEnds (Utf8.decode bytes).chars)).1 with
      | error fault => simp [drafted, bind, Except.bind] at read
      | ok d => simp [drafted, bind, Except.bind, throw, throwThe, MonadExceptOf.throw] at read
    · cases read

end Config

end Wdl
