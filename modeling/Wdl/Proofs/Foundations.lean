import Wdl.Parse
import Wdl.Proofs.Documents
import Wdl.Proofs.Lexemes
import Wdl.Proofs.Transposition

/-!
# Wdl.Proofs.Foundations -- what a violation is founded on

Whatever a check complains of is to be found in the text: the range it gives starts and ends there,
in this order, and if it is that a decimal integer has too many digits, then the text has as many
digits in a row. Checks make no ranges of their own; so what has to be traced back to the tokens of
a text are the ranges of its names, literals and entries, and its numbers.

* `Range.Between a b r` says where a range lies, `HasDigits cs n` that a text has `n` digits in a
  row.
* `Violated.Traced cs n v` is what a violation owes the text: a range in its first `n` characters,
  and the digits it counts (`Violated.Founded`). `Traced cs n c` asks it of whatever a check `c`
  stops at.
* `traced_bind`, `traced_mapM` and `traced_forM` carry it through what checks are put together with;
  `traced_violate` is the one place where a violation is made.
* There is one lemma for each check of `Wdl.Build.Expr`. Those of `Surface` forms ask only for what
  their parts owe, so that `Wdl.Proofs.Advances` can use them while it follows a parser.
* `Run.hasDigits` is where the digits come from: a decimal integer that is taken stands in the text.
-/

namespace Wdl

variable {α β : Type} {cs : List Char} {n : Nat}

/-! ## Ranges -/

namespace Range

/-- The range lies between two positions, its ends in order. -/
structure Between (a b : Nat) (r : Range) : Prop where
  start : a ≤ r.start
  ordered : r.start ≤ r.stop
  stop : r.stop ≤ b

variable {a b c d : Nat} {q r : Range}

/-- What lies between two positions lies between any two around them. -/
theorem Between.widen (h : r.Between b c) (ab : a ≤ b) (cd : c ≤ d) : r.Between a d :=
  ⟨Nat.le_trans ab h.start, h.ordered, Nat.le_trans h.stop cd⟩

/-- A range that ends at a position or before it lies in the text up to there. -/
theorem Between.upto (h : r.Between a b) (bc : b ≤ c) : r.Between 0 c :=
  h.widen (Nat.zero_le a) bc

/-- From the start of one range to the end of another one that lies behind it. -/
theorem Between.join (first : q.Between a b) (last : r.Between c d) (bc : b ≤ c) :
    (q.join r).Between a d := by
  obtain ⟨start, ordered, stop⟩ := first
  obtain ⟨start', ordered', stop'⟩ := last
  refine ⟨start, ?_, stop'⟩
  simp only [join_start, join_stop]
  omega

end Range

/-- A text has that many decimal digits in a row. -/
def HasDigits (cs : List Char) (n : Nat) : Prop :=
  ∃ digits, digits <:+: cs ∧ digits.length = n ∧ ∀ d ∈ digits, isAsciiDigit d = true

/-- If a violation is that there are too many digits, then the text has them. -/
def Violated.Founded (cs : List Char) (v : Violated) : Prop :=
  ∀ n, v.violation = .tooManyDigits n → Violation.maxDigits < n ∧ HasDigits cs n

/-- A violation is founded, and it is found in the first `n` characters of the text. -/
structure Violated.Traced (cs : List Char) (n : Nat) (v : Violated) : Prop where
  range : v.range.Between 0 n
  founded : v.Founded cs

namespace Build

/-! ## Checks -/

/-- Whatever a check complains of is founded, and found in the first `n` characters. -/
def Traced (cs : List Char) (n : Nat) (c : Checked α) : Prop := ∀ v, c = .error v → v.Traced cs n

theorem Traced.widen {m : Nat} {c : Checked α} (h : Traced cs m c) (le : m ≤ n) :
    Traced cs n c :=
  fun v failed => ⟨(h v failed).range.upto le, (h v failed).founded⟩

theorem traced_ok (x : α) : Traced cs n (.ok x : Checked α) := by
  intro v h
  cases h

/-- A violation at a range of the text is founded unless it counts digits. The one that does,
`Violation.tooManyDigits`, is left to `traced_intLiteral`. -/
theorem traced_violate {v : Violation} {r : Range} (range : r.Between 0 n)
    (other : ∀ m, v ≠ .tooManyDigits m) : Traced cs n (violate v r : Checked α) := by
  intro w h
  cases h
  exact ⟨range, fun m eq => absurd eq (other m)⟩

/-- One check behind another: the second may count on what the first one returned. -/
theorem traced_bind {c : Checked α} {f : α → Checked β} (first : Traced cs n c)
    (rest : ∀ x, c = .ok x → Traced cs n (f x)) : Traced cs n (c >>= f) := by
  intro v h
  cases c with
  | error w =>
    cases h
    exact first v rfl
  | ok x => exact rest x rfl v h

theorem traced_mapM {f : α → Checked β} {xs : List α} (each : ∀ x ∈ xs, Traced cs n (f x)) :
    Traced cs n (xs.mapM f) := by
  induction xs with
  | nil => exact traced_ok []
  | cons x xs ih =>
    rw [List.forall_mem_cons] at each
    rw [List.mapM_cons]
    exact traced_bind each.1 fun y _ => traced_bind (ih each.2) fun ys _ => traced_ok _

theorem traced_forM {f : α → Checked Unit} {xs : List α} (each : ∀ x ∈ xs, Traced cs n (f x)) :
    Traced cs n (xs.forM f) := by
  induction xs with
  | nil => exact traced_ok ()
  | cons x xs ih =>
    rw [List.forall_mem_cons] at each
    exact traced_bind each.1 fun _ _ => ih each.2

/-! ## Literals and names

Names, texts and numbers are where all ranges and all digits come from: a `Surface.Word` and a
`Surface.Quoted` bring the range of their token, and a `Surface.Number` its characters as well. -/

theorem traced_checkName (rules : Rules) {w : Surface.Word} (range : w.range.Between 0 n) :
    Traced cs n (checkName rules w) := by
  unfold checkName
  split
  · exact traced_violate range (by simp)
  · exact traced_ok ()

theorem traced_checkMember (rules : Rules) {w : Surface.Word} (range : w.range.Between 0 n) :
    Traced cs n (checkMember rules w) := by
  unfold checkMember
  split
  · exact traced_ok ()
  · exact traced_checkName rules range

theorem traced_structName (rules : Rules) {w : Surface.Word} (range : w.range.Between 0 n) :
    Traced cs n (structName rules w) := by
  unfold structName
  split
  · exact traced_ok none
  · exact traced_bind (traced_checkName rules range) fun _ _ => traced_ok _

theorem traced_decodeText (N : CharacterNames) {r : Range} (range : r.Between 0 n)
    (raw : List Char) : Traced cs n (decodeText N r raw) := by
  unfold decodeText
  split
  · exact traced_ok _
  · exact traced_violate range (by simp)

/-- The literal text of a part lies in the first `n` characters. -/
def RawUpto (n : Nat) : RawPart → Prop
  | .text r _ => r.Between 0 n
  | .placeholder _ => True

theorem traced_decodeParts (N : CharacterNames) {ps : List RawPart} (each : ∀ p ∈ ps, RawUpto n p) :
    Traced cs n (decodeParts N ps) := by
  induction ps with
  | nil => exact traced_ok []
  | cons p ps ih =>
    rw [List.forall_mem_cons] at each
    cases p with
    | text r raw =>
      exact traced_bind (traced_decodeText N each.1 raw) fun _ _ =>
        traced_bind (ih each.2) fun _ _ => traced_ok _
    | placeholder p => exact traced_bind (ih each.2) fun _ _ => traced_ok _

/-- A key that occurs again is reported at the range of its entry. -/
theorem traced_distinct {repeated : String → Violation}
    (other : ∀ key m, repeated key ≠ .tooManyDigits m) (done : List (String × α))
    {entries : List (String × α × Range)} (each : ∀ e ∈ entries, e.2.2.Between 0 n) :
    Traced cs n (distinct repeated done entries) := by
  induction entries generalizing done with
  | nil => exact traced_ok done
  | cons entry entries ih =>
    rw [List.forall_mem_cons] at each
    unfold distinct
    split
    · exact traced_violate each.1 (other entry.1)
    · exact ih _ each.2

/-- A number whose text is in the text, if it is a decimal integer. -/
def Grounded (cs : List Char) (n : Surface.Number) : Prop :=
  n.kind = .decimal → HasDigits cs n.chars.length

/-- An integer literal is refused for its digits only in the decimal radix, where they are in the
text. -/
theorem traced_intLiteral {r : Range} {radix : Radix} {text : List Char}
    (range : r.Between 0 n) (grounded : radix = .decimal → HasDigits cs text.length) :
    Traced cs n (intLiteral r radix text) := by
  unfold intLiteral
  split
  · rename_i long
    intro v h
    cases h
    refine ⟨range, fun m eq => ?_⟩
    cases eq
    exact ⟨long.2, grounded long.1⟩
  · dsimp only
    split
    · exact traced_violate range (by simp)
    · exact traced_ok _

theorem traced_numberValue {x : Surface.Number} (range : x.range.Between 0 n)
    (grounded : Grounded cs x) : Traced cs n (numberValue x) := by
  unfold numberValue
  split
  · exact traced_ok _
  · exact traced_bind (traced_intLiteral range nofun) fun _ _ => traced_ok _
  · exact traced_bind (traced_intLiteral range nofun) fun _ _ => traced_ok _
  · rename_i decimal
    exact traced_bind (traced_intLiteral range fun _ => grounded decimal) fun _ _ => traced_ok _

/-! ## Expressions from their parts

The checks of expressions recurse on surface forms. Here each form is traced from what its parts
owe; that every part owes it is found by going along with the parser. -/

variable {rules : Rules}

theorem traced_exprs {σs : List Surface.Expr} (each : ∀ σ ∈ σs, Traced cs n (expr rules σ)) :
    Traced cs n (exprs rules σs) := by
  induction σs with
  | nil => exact traced_ok []
  | cons σ σs ih =>
    rw [List.forall_mem_cons] at each
    exact traced_bind each.1 fun _ _ => traced_bind (ih each.2) fun _ _ => traced_ok _

/-- A key and value of a map of which both are traced. -/
def TracedItem (cs : List Char) (rules : Rules) (n : Nat) (i : Surface.Expr × Surface.Expr) :
    Prop :=
  Traced cs n (expr rules i.1) ∧ Traced cs n (expr rules i.2)

theorem traced_pairs {items : List (Surface.Expr × Surface.Expr)}
    (each : ∀ i ∈ items, TracedItem cs rules n i) : Traced cs n (pairs rules items) := by
  induction items with
  | nil => exact traced_ok []
  | cons item items ih =>
    rw [List.forall_mem_cons] at each
    exact traced_bind each.1.1 fun _ _ => traced_bind each.1.2 fun _ _ =>
      traced_bind (ih each.2) fun _ _ => traced_ok _

/-- Where a key is. -/
def keyRange : Surface.Key → Range
  | .word w => w.range
  | .quoted q => q.range

/-- A member of a struct whose value is traced, and whose key lies in the first `n` characters. -/
def TracedMember (cs : List Char) (rules : Rules) (n : Nat) (m : Surface.Key × Surface.Expr) :
    Prop :=
  (keyRange m.1).Between 0 n ∧ Traced cs n (expr rules m.2)

/-- A member of a struct complains of its key before it complains of its value. -/
theorem traced_members {ms : List (Surface.Key × Surface.Expr)}
    (each : ∀ m ∈ ms, TracedMember cs rules n m) : Traced cs n (members rules ms) := by
  induction ms with
  | nil => exact traced_ok []
  | cons m ms ih =>
    rw [List.forall_mem_cons] at each
    obtain ⟨⟨key, value⟩, more⟩ := each
    obtain ⟨k, σ⟩ := m
    cases k with
    | quoted q =>
      exact traced_bind (traced_decodeText rules.names key _) fun _ _ =>
        traced_bind value fun _ _ =>
        traced_bind (ih more) fun _ _ => traced_ok _
    | word w =>
      exact traced_bind value fun _ _ => traced_bind (traced_checkName rules key) fun _ _ =>
        traced_bind (ih more) fun _ _ => traced_ok _

theorem traced_operands {links : List (BinaryOp × Surface.Expr)}
    (each : ∀ l ∈ links, Traced cs n (expr rules l.2)) : Traced cs n (operands rules links) := by
  induction links with
  | nil => exact traced_ok []
  | cons link links ih =>
    rw [List.forall_mem_cons] at each
    exact traced_bind each.1 fun _ _ => traced_bind (ih each.2) fun _ _ => traced_ok _

/-- An accessor whose index is traced, or whose name lies in the first `n` characters. -/
def TracedAccessor (cs : List Char) (rules : Rules) (n : Nat) : Surface.Accessor → Prop
  | .index _ i => Traced cs n (expr rules i)
  | .member _ name => name.range.Between 0 n

theorem TracedAccessor.widen {m : Nat} {a : Surface.Accessor} (h : TracedAccessor cs rules m a)
    (le : m ≤ n) : TracedAccessor cs rules n a := by
  cases a with
  | index r i => exact Traced.widen h le
  | member r name => exact Range.Between.upto h le

theorem traced_accesses {accessors : List Surface.Accessor}
    (each : ∀ a ∈ accessors, TracedAccessor cs rules n a) :
    Traced cs n (accesses rules accessors) := by
  induction accessors with
  | nil => exact traced_ok []
  | cons a accessors ih =>
    rw [List.forall_mem_cons] at each
    cases a with
    | index r i =>
      exact traced_bind each.1 fun _ _ => traced_bind (ih each.2) fun _ _ => traced_ok _
    | member r name =>
      exact traced_bind (traced_checkMember rules each.1) fun _ _ =>
        traced_bind (ih each.2) fun _ _ => traced_ok _

/-- A placeholder option that lies in the first `n` characters, and whose value is traced. -/
def TracedOption (cs : List Char) (rules : Rules) (n : Nat)
    (o : Surface.PlaceholderOption) : Prop :=
  o.range.Between 0 n ∧ Traced cs n (optionText rules.names o.value)

theorem TracedOption.widen {m : Nat} {o : Surface.PlaceholderOption}
    (h : TracedOption cs rules m o) (le : m ≤ n) : TracedOption cs rules n o :=
  ⟨h.1.upto le, h.2.widen le⟩

theorem traced_placeholderOption {o : Surface.PlaceholderOption} (h : TracedOption cs rules n o) :
    Traced cs n (placeholderOption rules.names o) := by
  refine traced_bind h.2 fun _ _ => ?_
  split
  · exact traced_ok _
  · exact traced_violate h.1 (by simp)

/-- An option keeps its range. -/
theorem placeholderOption_range {N : CharacterNames} {o : Surface.PlaceholderOption}
    {x : String × Text × Range} (h : placeholderOption N o = .ok x) : x.2.2 = o.range := by
  obtain ⟨value, -, h⟩ := bind_eq_ok.1 h
  split at h
  · cases h
    rfl
  · cases h

theorem traced_placeholder {r : Range} {options : List Surface.PlaceholderOption}
    {σ : Surface.Expr} (each : ∀ o ∈ options, TracedOption cs rules n o)
    (inner : Traced cs n (expr rules σ)) :
    Traced cs n (placeholder rules (.mk r options σ)) := by
  rw [placeholder]
  refine traced_bind (traced_mapM fun o ho => traced_placeholderOption (each o ho))
    fun built h => traced_bind inner fun _ _ =>
      traced_bind (traced_distinct (by simp) _ ?_) fun _ _ => traced_ok _
  exact forall_of_forall₂ (mapM_eq_ok.1 h) fun o ho x hx =>
    placeholderOption_range hx ▸ (each o ho).1

/-- A part whose literal text lies in the first `n` characters, or whose placeholder is traced. -/
def TracedPart (cs : List Char) (rules : Rules) (n : Nat) : Surface.Part → Prop
  | .text r _ => r.Between 0 n
  | .placeholder p => Traced cs n (placeholder rules p)

theorem TracedPart.widen {m : Nat} {p : Surface.Part} (h : TracedPart cs rules m p)
    (le : m ≤ n) : TracedPart cs rules n p := by
  cases p with
  | text r raw => exact Range.Between.upto h le
  | placeholder p => exact Traced.widen h le

theorem traced_rawParts {ps : List Surface.Part} (each : ∀ p ∈ ps, TracedPart cs rules n p) :
    Traced cs n (rawParts rules ps) := by
  induction ps with
  | nil => exact traced_ok []
  | cons p ps ih =>
    rw [List.forall_mem_cons] at each
    cases p with
    | text r raw => exact traced_bind (ih each.2) fun _ _ => traced_ok _
    | placeholder p =>
      exact traced_bind each.1 fun _ _ => traced_bind (ih each.2) fun _ _ => traced_ok _

/-- Literal text stays where it is while the placeholders are built. -/
theorem rawParts_upto {ps : List Surface.Part} {raws : List RawPart}
    (each : ∀ p ∈ ps, TracedPart cs rules n p) (h : rawParts rules ps = .ok raws) :
    ∀ raw ∈ raws, RawUpto n raw := by
  induction ps generalizing raws with
  | nil =>
    cases h
    simp
  | cons p ps ih =>
    rw [List.forall_mem_cons] at each
    cases p with
    | text r raw =>
      obtain ⟨rest, hrest, rfl⟩ := by simpa [rawParts] using h
      exact List.forall_mem_cons.2 ⟨each.1, ih each.2 hrest⟩
    | placeholder p =>
      obtain ⟨P, -, rest, hrest, rfl⟩ := by simpa [rawParts] using h
      exact List.forall_mem_cons.2 ⟨trivial, ih each.2 hrest⟩

/-- A string is traced if its parts are. -/
theorem traced_string {r : Range} {ps : List Surface.Part}
    (each : ∀ p ∈ ps, TracedPart cs rules n p) : Traced cs n (expr rules (.string r ps)) :=
  traced_bind (traced_rawParts each) fun _ h =>
    traced_bind (traced_decodeParts rules.names (rawParts_upto each h)) fun _ _ => traced_ok _

end Build

/-! ## Tokens -/

/-- A number that is found is in its notation. -/
theorem Scan.plain?_number {fe : FrontEnd} {expect : Expect} {text : List Char}
    {kind : NumeralKind} {n : Nat} (h : plain? fe expect text = some (.number kind, n)) :
    Numeral.lengthIn? kind text = some n := by
  obtain ⟨-, kind', eq, scanned⟩ := number?_eq_some (plain?_found h)
  cases eq
  rw [FrontEnd.scanNumber_eq] at scanned
  obtain ⟨k, -, here⟩ := List.exists_of_findSome?_eq_some scanned
  obtain ⟨m, length, eq⟩ := Option.map_eq_some_iff.1 here
  cases eq
  exact length

/-- A decimal integer that is read is made of decimal digits. -/
theorem FrontEnd.Reads.digits {fe : FrontEnd} {expect : Expect} {gap chars rest : List Char}
    (h : fe.Reads expect gap (.number .decimal) chars rest) :
    ∀ d ∈ chars, isAsciiDigit d = true := by
  rcases h with ⟨-, found⟩ | ⟨-, -, found⟩
  · have literal := (Scan.literal?_eq_some found).2.1
    cases literal
  · obtain ⟨run, behind, split, length, shape⟩ :=
      Numeral.decimalLength?_shape (Scan.plain?_number found)
    obtain ⟨rfl, -⟩ := List.append_inj split length
    rcases shape with rfl | ⟨d, ds, rfl, range, digits⟩
    · simp [isAsciiDigit]
    · exact List.forall_mem_cons.2 ⟨Numeral.isAsciiDigit_of_range range, digits⟩

namespace Parser

/-- A decimal integer that is taken is in the text. -/
theorem Run.hasDigits {fe : FrontEnd} {s s' : State} {x : Step} (sound : s.Sound fe cs)
    (run : Run fe.next s [x] s') (decimal : x.token.kind = .number .decimal) :
    HasDigits cs x.token.chars.length := by
  obtain ⟨on, -⟩ := Run.step_sound sound run
  obtain ⟨expect, c, -, found⟩ := sound.found
  rw [run.ahead_eq] at found
  obtain ⟨gap, -, -, -, reads⟩ := next_eq_some.1 found
  rw [decimal] at reads
  refine ⟨x.token.chars, ?_, rfl, reads.digits⟩
  rw [on.eq]
  exact (List.take_prefix _ _).isInfix.trans (List.drop_suffix _ _).isInfix

end Parser

end Wdl
