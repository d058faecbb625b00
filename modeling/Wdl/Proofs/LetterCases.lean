import Wdl.Text.LetterCase

/-!
# Wdl.Proofs.LetterCases -- small letters stay small

The letters that capital letters are mapped to have no small form of their own. So the small form of
a text is its own small form (`small_small`), and names that are compared in small letters can be
stored in them.

* Of the table this is checked range by range (`toSmall_apart`): no range of small letters meets a
  range of capital ones, or where they overlap, the letters of both alternate. `CaseRange.apart` is
  the check, and `CaseRange.apart_covers` what it is worth.
* `Settled c` says of a character that it is its own small form wherever it stands.
  `settled_smallChar` says that small forms consist of such characters; the sigma, whose small form
  depends on what it stands between, and the dotted I, which has two characters, are cases of their
  own.
-/

namespace Wdl.LetterCase

/-! ## Ranges -/

namespace CaseRange

/-- The first letter of a range in the other case. -/
def first (r : CaseRange) : Nat := (r.low + r.distance).toNat

/-- The last letter of a range in the other case. -/
def last (r : CaseRange) : Nat := (r.high + r.distance).toNat

/-- A code point is one of the letters of the range. -/
def covers (r : CaseRange) (n : Nat) : Bool :=
  r.low ≤ n && n ≤ r.high && (n - r.low) % r.step == 0

/-- The range goes upwards, by one or two, and its letters in the other case are characters. -/
def regular (r : CaseRange) : Bool :=
  Nat.ble r.low r.high && (Nat.beq r.step 1 || Nat.beq r.step 2) &&
    decide (0 ≤ r.low + r.distance) &&
    (Nat.blt r.last 0xD800 || Nat.blt 0xDFFF r.first && Nat.blt r.last 0x110000)

/-- The letters of the first range are, in the other case, none of those of the second. -/
def apart (r s : CaseRange) : Bool :=
  Nat.blt r.last s.low || Nat.blt s.high r.first ||
    ((Nat.beq r.step 2 || Nat.beq r.low r.high) && Nat.beq s.step 2 &&
      !Nat.beq (r.first % 2) (s.low % 2))

end CaseRange

/-- All ranges of the table are regular. -/
theorem toSmall_regular : (toSmall.all CaseRange.regular) = true := by decide +kernel

/-- The small letters of every range of the table are apart from the capital ones of every range. -/
theorem toSmall_apart : (toSmall.all fun r => toSmall.all fun s => r.apart s) = true := by
  decide +kernel

/-- Neither the sigma nor the dotted I is the small form of a letter of the table. -/
theorem toSmall_special : (toSmall.all fun r =>
    r.apart ⟨0x3A3, 0x3A3, 2, 0⟩ && r.apart ⟨0x130, 0x130, 2, 0⟩) = true := by decide +kernel

/-- A letter in the other case lies between the first and the last of its range. -/
theorem CaseRange.image {r : CaseRange} (regular : r.regular = true) {n : Nat}
    (covered : r.covers n = true) :
    r.first ≤ (n + r.distance).toNat ∧ (n + r.distance).toNat ≤ r.last ∧
      (r.step = 2 ∨ r.low = r.high → (n + r.distance).toNat % 2 = r.first % 2) := by
  simp only [CaseRange.regular, covers, Bool.and_eq_true, decide_eq_true_eq, beq_iff_eq,
    Bool.or_eq_true, Nat.beq_eq, Nat.ble_eq] at regular covered
  obtain ⟨⟨⟨ordered, step⟩, positive⟩, -⟩ := regular
  obtain ⟨⟨above, below⟩, aligned⟩ := covered
  unfold first last
  refine ⟨by omega, by omega, ?_⟩
  rintro (two | single)
  · rw [two] at aligned
    omega
  · omega

/-- Where two ranges are apart, no letter of the first is, in the other case, one of the second. -/
theorem CaseRange.apart_covers {r s : CaseRange} (regular : r.regular = true)
    (apart : r.apart s = true) {n : Nat} (covered : r.covers n = true) :
    s.covers (n + r.distance).toNat = false := by
  obtain ⟨least, greatest, parity⟩ := r.image regular covered
  simp only [CaseRange.apart, Bool.or_eq_true, Bool.and_eq_true, Nat.blt_eq, Nat.beq_eq,
    Bool.not_eq_true', Bool.eq_false_iff, ne_eq] at apart
  rw [Bool.eq_false_iff]
  intro covers
  simp only [CaseRange.covers, Bool.and_eq_true, decide_eq_true_eq, beq_iff_eq] at covers
  obtain ⟨⟨above, below⟩, aligned⟩ := covers
  rcases apart with (less | less) | ⟨⟨steps, two⟩, odd⟩
  · omega
  · omega
  · have same := parity steps
    rw [two] at aligned
    omega

/-! ## Characters -/

/-- What a table maps a code point to: the other case in the first range that covers it. -/
theorem mapped_eq (table : List CaseRange) (n : Nat) :
    (∃ r ∈ table, r.covers n = true ∧ mapped table n = (n + r.distance).toNat) ∨
      (∀ r ∈ table, r.covers n = false) ∧ mapped table n = n := by
  unfold mapped
  split
  · rename_i r found
    have covered : r.covers n = true := List.find?_some (p := (CaseRange.covers · n)) found
    exact .inl ⟨r, List.mem_of_find?_eq_some found, covered, rfl⟩
  · rename_i found
    rw [List.find?_eq_none] at found
    refine .inr ⟨fun r hr => ?_, rfl⟩
    simpa [CaseRange.covers] using found r hr

/-- A character that is its own small form, whatever it stands between. -/
def Settled (c : Char) : Prop := ∀ before after, smallChar before c after = [c]

/-- No range of capital letters covers the character, and it is no special case. -/
def isFree (d : Char) : Bool :=
  d != sigma && d != '\u0130' && toSmall.all fun r => !r.covers d.toNat

/-- A character that has no small form of its own is settled. -/
theorem settled_of_isFree {d : Char} (h : isFree d = true) : Settled d := by
  simp only [isFree, Bool.and_eq_true, bne_iff_ne, List.all_eq_true, Bool.not_eq_true'] at h
  obtain ⟨⟨hs, hi⟩, free⟩ := h
  intro before after
  unfold smallChar
  split
  · have plain := free ⟨0x41, 0x5A, 1, 32⟩ List.mem_cons_self
    have lower : d.toLower = d := by
      unfold Char.toLower
      rw [dif_neg]
      intro h
      have inside : 0x41 ≤ d.toNat ∧ d.toNat ≤ 0x5A := h
      simp [CaseRange.covers, inside, Nat.mod_one] at plain
    rw [lower]
  · rcases mapped_eq toSmall d.toNat with ⟨r, hr, covered, -⟩ | ⟨-, same⟩
    · rw [free r hr] at covered
      cases covered
    · rw [same, Char.ofNat_toNat]

/-- The small form of a letter of the table is a character, and no letter of the table. -/
theorem settled_image {r : CaseRange} (hr : r ∈ toSmall) {n : Nat} (covered : r.covers n = true) :
    Settled (Char.ofNat (n + r.distance).toNat) := by
  have regular := List.all_eq_true.1 toSmall_regular r hr
  have special := List.all_eq_true.1 toSmall_special r hr
  rw [Bool.and_eq_true] at special
  obtain ⟨least, greatest, -⟩ := r.image regular covered
  have valid : (n + r.distance).toNat.isValidChar := by
    simp only [CaseRange.regular, Bool.and_eq_true, Bool.or_eq_true, Nat.blt_eq] at regular
    unfold Nat.isValidChar
    omega
  have eq : (Char.ofNat (n + r.distance).toNat).toNat = (n + r.distance).toNat := by
    unfold Char.ofNat
    rw [dif_pos valid]
    rfl
  have other : ∀ c : Char, r.apart ⟨c.toNat, c.toNat, 2, 0⟩ = true →
      Char.ofNat (n + r.distance).toNat ≠ c := by
    rintro c apart rfl
    have outside := CaseRange.apart_covers regular apart covered
    rw [eq] at outside
    simp [CaseRange.covers] at outside
  have apart := List.all_eq_true.1 (List.all_eq_true.1 toSmall_apart r hr)
  refine settled_of_isFree ?_
  simp only [isFree, Bool.and_eq_true, bne_iff_ne, List.all_eq_true, Bool.not_eq_true', eq]
  exact ⟨⟨other sigma special.1, other '\u0130' special.2⟩, fun s hs =>
    CaseRange.apart_covers regular (apart s hs) covered⟩

/-- What the table maps a character to is settled. -/
theorem settled_mapped {c : Char} (hs : c ≠ sigma) (hi : c ≠ '\u0130') :
    Settled (Char.ofNat (mapped toSmall c.toNat)) := by
  rcases mapped_eq toSmall c.toNat with ⟨r, hr, covered, eq⟩ | ⟨free, eq⟩
  · rw [eq]
    exact settled_image hr covered
  · rw [eq, Char.ofNat_toNat]
    refine settled_of_isFree ?_
    simp only [isFree, Bool.and_eq_true, bne_iff_ne, List.all_eq_true, Bool.not_eq_true']
    exact ⟨⟨hs, hi⟩, free⟩

/-- Small forms of ASCII characters are free. -/
theorem isFree_toLower : ((List.range 0x80).all fun n => isFree (Char.ofNat n).toLower) = true := by
  decide +kernel

/-- Small forms of ASCII characters are settled. -/
theorem settled_toLower {c : Char} (ascii : c.toNat < 0x80) : Settled c.toLower := by
  have free := List.all_eq_true.1 isFree_toLower c.toNat (List.mem_range.2 ascii)
  rw [Char.ofNat_toNat] at free
  exact settled_of_isFree free

/-- The small form of a character consists of settled ones. -/
theorem settled_smallChar (before : List Char) (c : Char) (after : List Char) :
    ∀ d ∈ smallChar before c after, Settled d := by
  unfold smallChar
  split
  · rename_i ascii
    simpa using settled_toLower ascii
  · split
    · split
      · simpa using settled_of_isFree (d := '\u03C2') (by decide +kernel)
      · simpa using settled_of_isFree (d := '\u03C3') (by decide +kernel)
    · split
      · simpa using ⟨settled_of_isFree (d := 'i') (by decide +kernel),
          settled_of_isFree (d := '\u0307') (by decide +kernel)⟩
      · rename_i hs hi
        simpa using settled_mapped hs hi

/-- Small letters stay as they are. -/
theorem smallAfter_settled {cs : List Char} (settled : ∀ c ∈ cs, Settled c) (before : List Char) :
    smallAfter before cs = cs := by
  induction cs generalizing before with
  | nil => rfl
  | cons c cs ih =>
    obtain ⟨here, rest⟩ := List.forall_mem_cons.1 settled
    rw [smallAfter, here, ih rest]
    rfl

/-- The small form of a text consists of settled characters. -/
theorem settled_smallAfter (before cs : List Char) : ∀ d ∈ smallAfter before cs, Settled d := by
  induction cs generalizing before with
  | nil => simp [smallAfter]
  | cons c cs ih =>
    rw [smallAfter, List.forall_mem_append]
    exact ⟨settled_smallChar before c cs, ih _⟩

/-- The small form of a text is its own small form. -/
@[simp] theorem small_small (s : String) : small (small s) = small s := by
  unfold small
  rw [String.toList_ofList, smallAfter_settled (settled_smallAfter [] s.toList)]

end Wdl.LetterCase
