import Wdl.Proofs.Keys
import Wdl.Proofs.Lines

/-!
# Wdl.Proofs.Quotations -- a text in single quotes that can be decoded ends at its own mark

A text in single quotes ends at the first mark that no backslash guards, which may be many lines
further on. If there is none, it ends at the last guarded mark, but then its last backslash has
nothing to guard: it cannot be decoded. So a text that can be decoded ends where it does whatever
comes behind it.

* `guardsNext guarded cs` tells whether a backslash guards what comes behind `cs`.
* `Means.guarded` and `guardsNext_decode`: an escape uses up its backslash, so a text that can be
  decoded guards nothing. For a name this holds because names are spelled without backslashes.
* `singleRest?_closed` and `quotedLength?_closed` say that such a text is found before any other
  text.
* `Step.Closed` is the property of a token, and `Script.closed` has it of all tokens of an
  expression that can be built.
-/

namespace Wdl

open Scan

namespace Escape

/-! ## Guarded characters -/

/-- Whether a backslash guards what comes behind a text, given whether one guards what comes first
in it. -/
def guardsNext (guarded : Bool) (cs : List Char) : Bool :=
  cs.foldl (fun guarded c => c == '\\' && !guarded) guarded

@[simp] theorem guardsNext_nil (b : Bool) : guardsNext b [] = b := rfl

@[simp] theorem guardsNext_cons (b : Bool) (c : Char) (cs : List Char) :
    guardsNext b (c :: cs) = guardsNext (c == '\\' && !b) cs := rfl

@[simp] theorem guardsNext_append (b : Bool) (cs ds : List Char) :
    guardsNext b (cs ++ ds) = guardsNext (guardsNext b cs) ds := List.foldl_append

/-- Without backslashes nothing is guarded. -/
theorem guardsNext_plain {cs : List Char} (plain : '\\' ∉ cs) : guardsNext false cs = false := by
  induction cs with
  | nil => rfl
  | cons c cs ih =>
    rw [List.mem_cons, not_or] at plain
    have other : (c == '\\') = false := beq_false_of_ne (Ne.symm plain.1)
    rw [guardsNext_cons, other]
    exact ih plain.2

/-! ## Escapes -/

theorem ne_backslash_of_hexDigit {c : Char} (h : isHexDigit c = true) : c ≠ '\\' := by
  rintro rfl
  cases h

theorem ne_backslash_of_octalDigit {c : Char} (h : isOctalDigit c = true) : c ≠ '\\' := by
  rintro rfl
  cases h

/-- Behind the character that names an escape, no backslash belongs to it. -/
theorem Means.guarded {names : CharacterNames} {keeps : Char → Bool} {next body : List Char}
    {out : Text} (means : Means names keeps next body out) : guardsNext true body = false := by
  have digits {c : Char} {ds : List Char} (plain : ∀ d ∈ ds, d ≠ '\\') :
      guardsNext true (c :: ds) = false := by
    rw [guardsNext_cons, Bool.not_true, Bool.and_false]
    exact guardsNext_plain fun mem => plain _ mem rfl
  have single {c : Char} : guardsNext true [c] = false := digits (by simp)
  cases means with
  | lineFeed => exact single
  | itself => exact single
  | control => exact single
  | octal filled few each most =>
    obtain ⟨d, ds, rfl⟩ := List.exists_cons_of_ne_nil filled
    exact digits fun d hd => ne_backslash_of_octalDigit (each d (List.mem_cons_of_mem _ hd))
  | code h size each inside =>
    exact digits fun d hd => ne_backslash_of_hexDigit (exists_values_iff.1 ⟨_, each⟩ d hd)
  | @named name c filled closed known =>
    have plain : ∀ d ∈ name ++ ['\x7d'], d ≠ '\\' :=
      List.forall_mem_append.2 ⟨fun d hd => (names.spelled name c known d hd).2,
        List.forall_mem_singleton.2 (by decide)⟩
    exact digits (List.forall_mem_cons.2 ⟨by decide, plain⟩)
  | other => exact single

/-- A text that can be decoded guards nothing behind it. -/
theorem guardsNext_decode {names : CharacterNames} {raw : List Char} {out : Text}
    (h : decode raw names = some out) : guardsNext false raw = false := by
  rw [decode_eq_some_iff] at h
  induction h with
  | nil => rfl
  | @char c raw out plain _ ih =>
    rw [guardsNext_cons, beq_false_of_ne plain]
    exact ih
  | @escape body next here out means _ ih =>
    show guardsNext true (body ++ next) = false
    rw [guardsNext_append, means.guarded]
    exact ih

end Escape

open Escape (guardsNext guardsNext_cons)

/-! ## Texts in single quotes -/

namespace Scan

/-- A mark that nothing guards ends a text in single quotes. -/
theorem singleRest?_mark (cs : List Char) : singleRest? ('\'' :: cs) = some 1 := by
  rw [singleRest?, if_pos rfl]
  · rintro rest ⟨⟩
  · rintro rest ⟨⟩

/-- The mark that ends a text ends it before any other text, if no backslash guards it. -/
theorem singleRest?_closed {raw r : List Char} (free : guardsNext false raw = false)
    (h : singleRest? (raw ++ '\'' :: r) = some (raw.length + 1)) (r' : List Char) :
    singleRest? (raw ++ '\'' :: r') = some (raw.length + 1) := by
  -- the mark behind the text is not guarded, so it ends the text before what follows is seen
  induction raw using singleRest?.induct with
  | case1 => exact singleRest?_mark r'
  | case2 raw ih =>
    simp only [List.cons_append, singleRest?, List.length_cons] at h ⊢
    obtain ⟨n, found, size⟩ := Option.map_eq_some_iff.1 h
    rw [ih free (by rw [found]; congr 1; omega)]
    rfl
  | case3 raw ih =>
    simp only [List.cons_append, singleRest?, List.length_cons, Option.some.injEq] at h ⊢
    have found : singleRest? (raw ++ '\'' :: r) = some (raw.length + 1) := by
      cases rest : singleRest? (raw ++ '\'' :: r) with
      | none =>
        rw [rest, Option.getD_none] at h
        omega
      | some n =>
        rw [rest, Option.getD_some] at h
        congr 1
        omega
    rw [ih free found]
    rfl
  | case4 raw _ _ =>
    rw [List.cons_append, singleRest?_mark] at h
    simp at h
  | case5 c raw backslash guard mark ih =>
    cases raw with
    | nil =>
      have other : c ≠ '\\' := by
        rintro rfl
        cases free
      have plain : ∀ cs : List Char, singleRest? (c :: cs) = (singleRest? cs).map (· + 1) :=
        fun cs => singleRest?_plain mark (fun _ h => absurd h other) (fun _ h => absurd h other)
      show singleRest? (c :: '\'' :: r') = _
      rw [plain, singleRest?_mark]
      rfl
    | cons d raw =>
      have plain := singleRest?_pair mark backslash guard
      have free' : guardsNext false (d :: raw) = false := by
        by_cases hc : c = '\\'
        · have hd : (d == '\\') = false := beq_false_of_ne fun hd => backslash raw hc (by rw [hd])
          rw [guardsNext_cons, guardsNext_cons, hd] at free
          rw [guardsNext_cons, hd]
          exact free
        · rwa [guardsNext_cons, beq_false_of_ne hc] at free
      rw [plain] at h ⊢
      obtain ⟨n, found, size⟩ := Option.map_eq_some_iff.1 h
      rw [ih free' (by rw [found]; congr 1; simp at size ⊢; omega)]
      rfl

/-- A text in single quotes that guards nothing is found before any other text. -/
theorem quotedLength?_closed {raw r : List Char} (free : guardsNext false raw = false)
    (h : quotedLength? .single ('\'' :: (raw ++ '\'' :: r)) = some (raw.length + 2))
    (r' : List Char) :
    quotedLength? .single ('\'' :: (raw ++ '\'' :: r')) = some (raw.length + 2) := by
  change (singleRest? (raw ++ '\'' :: r)).map (· + 1) = some (raw.length + 1 + 1) at h
  show (singleRest? (raw ++ '\'' :: r')).map (· + 1) = _
  obtain ⟨n, found, size⟩ := Option.map_eq_some_iff.1 h
  rw [Nat.succ.inj size] at found
  rw [singleRest?_closed free found r']
  rfl

end Scan

/-! ## Expressions

Every text in quotes is decoded somewhere while its expression is built: as a key, or as the value
of an option. If building succeeds it could be decoded. Tokens of other kinds are closed for no
reason. -/

variable {rules : Rules}

namespace Parser

open Surface

/-- A text in quotes guards nothing behind it, not even its closing mark. -/
def Step.Closed (x : Step) : Prop :=
  ∀ q, x.token.kind = .quoted q → guardsNext false (quoted x.token).raw = false

/-- A literal between marks without placeholders. -/
def isQuoted : Terminal → Bool
  | .quoted _ => true
  | _ => false

/-- A token that is no text in quotes has nothing to guard. -/
theorem Step.Closed.of_kind {t : Token} {after : Expect} {k : Terminal} (kind : t.kind = k)
    (other : isQuoted k = false) : Step.Closed ⟨t, after⟩ := by
  intro q eq
  rw [← kind, show t.kind = .quoted q from eq] at other
  cases other

/-- A text in quotes that can be decoded guards nothing. -/
theorem Step.Closed.of_quotedText {N : CharacterNames} {t : Token} {after : Expect} {text : Text}
    (built : Build.quotedText N (quoted t) = .ok text) : Step.Closed ⟨t, after⟩ :=
  fun _ _ => Escape.guardsNext_decode (decodeText_eq_ok built)

/-- An option that can be built guards nothing. -/
theorem OptionPiece.closed {N : CharacterNames} {o : OptionPiece} (fits : o.Fits)
    {built : String × Text × Range} (h : Build.placeholderOption N o.option = .ok built) :
    ∀ x ∈ o.steps, x.Closed := by
  obtain ⟨name, equal, value⟩ := fits
  obtain ⟨text, decoded, -⟩ := Build.bind_eq_ok.1 h
  intro x hx
  simp only [OptionPiece.steps, List.mem_cons, List.not_mem_nil, or_false] at hx
  rcases hx with rfl | rfl | rfl
  · intro q kind
    rw [kind] at name
    cases name
  · exact .of_kind equal rfl
  · obtain ⟨_, _, v⟩ := o
    cases v with
    | quoted q t => exact .of_quotedText decoded
    | number kind t => exact .of_kind value rfl

/-- The parts of a string that can be built guard nothing. -/
theorem parts_closed {q : Quote} {parts : List PartPiece} {raw : List Build.RawPart}
    (fits : ∀ p ∈ parts, p.Fits (.string q))
    (each : ∀ p ∈ parts, ∀ x ∈ p.inner, ∀ e, Build.expr rules x.expr = .ok e →
      ∀ y ∈ x.steps, y.Closed)
    (built : Build.rawParts rules (parts.map PartPiece.part) = .ok raw) :
    ∀ p ∈ parts, ∀ x ∈ p.steps (.string q), x.Closed := by
  induction parts generalizing raw with
  | nil => simp
  | cons part parts ih =>
    have others := fun raw => @ih raw (fun p hp => fits p (by simp [hp]))
      (fun p hp => each p (by simp [hp]))
    have fit := fits part (by simp)
    cases part with
    | text t =>
      obtain ⟨rest, hrest, rfl⟩ := by simpa [PartPiece.part, Build.rawParts] using built
      refine List.forall_mem_cons.2 ⟨fun x hx => ?_, others rest hrest⟩
      obtain rfl := List.mem_singleton.1 hx
      exact .of_kind fit rfl
    | hole opener close h =>
      obtain ⟨p, hp, rest, hrest, rfl⟩ := by simpa [PartPiece.part, Build.rawParts] using built
      refine List.forall_mem_cons.2 ⟨?_, others rest hrest⟩
      -- a placeholder is built from its options and its expression, which are all built
      obtain ⟨options, hoptions, e, he, -⟩ := by
        simpa [Hole.placeholder, Build.placeholder] using hp
      obtain ⟨opened, closed, optionsFit⟩ := fit
      rw [Build.mapM_eq_ok] at hoptions
      have optionsBuilt : ∀ o ∈ h.options,
          ∃ b, Build.placeholderOption rules.names o.option = .ok b :=
        exists_of_forall₂ hoptions
      intro x hx
      simp only [PartPiece.steps, Hole.steps, List.mem_cons, List.mem_append, List.mem_flatMap,
        List.not_mem_nil, or_false] at hx
      rcases hx with rfl | (⟨o, ho, hx⟩ | hx) | rfl
      · exact .of_kind opened rfl
      · obtain ⟨b, hb⟩ := optionsBuilt o ho
        exact OptionPiece.closed (optionsFit o ho) hb x hx
      · exact each (.hole opener close h) (by simp) h.body (by simp [PartPiece.inner]) e he x hx
      · exact .of_kind closed rfl

/-- Nor do the items of a list. -/
theorem items_closed {items : List Piece} {es : List Expr}
    (each : ∀ x ∈ items, ∀ {e : Expr}, Build.expr rules x.expr = .ok e → ∀ y ∈ x.steps, y.Closed)
    (built : Build.exprs rules (items.map Piece.expr) = .ok es) :
    ∀ ys ∈ items.map Piece.steps, ∀ y ∈ ys, y.Closed := by
  rw [Build.exprs_eq_ok, List.forall₂_map_left_iff] at built
  intro ys hys
  obtain ⟨x, hx, rfl⟩ := List.mem_map.1 hys
  obtain ⟨e, he⟩ := exists_of_forall₂ built x hx
  exact each x hx he

/-- The expressions inside accesses are built. -/
theorem suffixes_built {suffixes : List Suffix} {as : List Build.Access}
    (built : Build.accesses rules (suffixes.map Suffix.accessor) = .ok as) :
    ∀ a ∈ suffixes, ∀ x ∈ a.inner, ∃ e, Build.expr rules x.expr = .ok e := by
  induction suffixes generalizing as with
  | nil => simp
  | cons a suffixes ih =>
    cases a with
    | member dot name =>
      obtain ⟨-, rest, hrest, rfl⟩ := by simpa [Suffix.accessor, Build.accesses] using built
      exact List.forall_mem_cons.2 ⟨by simp [Suffix.inner], ih hrest⟩
    | index bracket close i =>
      obtain ⟨e, he, rest, hrest, rfl⟩ := by simpa [Suffix.accessor, Build.accesses] using built
      exact List.forall_mem_cons.2 ⟨by simpa [Suffix.inner] using ⟨e, he⟩, ih hrest⟩

theorem Step.Closed.common : Common Step.Closed := by
  intro t after textless _ q kind
  rw [show t.kind = .quoted q from kind] at textless
  cases textless

/-- Nor does a key. -/
theorem KeyToken.closed {k : KeyToken} (fits : k.Fits) {key : Text}
    (built : KeyBuilt rules k.key key) : k.step.Closed := by
  cases k with
  | word t => exact .of_kind fits rfl
  | quoted q t => exact .of_quotedText built

/-- The texts in quotes of an expression that can be built guard nothing. -/
theorem Script.closed {level : Level} {place : Place} {σ : Surface.Expr} {xs : List Step}
    (h : Script level place σ xs) {e : Expr} (built : Build.expr rules σ = .ok e) :
    ∀ x ∈ xs, x.Closed := by
  have common := Step.Closed.common
  -- only a key may be a text in quotes, and what is built of a struct was decoded from its keys
  induction h generalizing e with
  | boolean t value kind => exact List.forall_mem_singleton.2 (.of_kind kind rfl)
  | null t kind => exact List.forall_mem_singleton.2 (.of_kind kind rfl)
  | number k t kind => exact List.forall_mem_singleton.2 (.of_kind kind rfl)
  | name t kind => exact List.forall_mem_singleton.2 (.of_kind kind rfl)
  | string q start close parts opened closed fits _ ih =>
    obtain ⟨raw, hraw, -⟩ := by simpa [Build.expr] using built
    have inner := parts_closed fits (fun p hp x hx e he => ih p hp x hx he) hraw
    refine forall_enclosed (.of_kind opened rfl) (fun x hx => ?_) (.of_kind closed rfl)
    obtain ⟨p, hp, hx⟩ := List.mem_flatMap.1 hx
    exact inner p hp x hx
  | array bracket close items opened closed _ separated ih =>
    obtain ⟨es, hes, -⟩ := by simpa [Build.expr] using built
    have inner := common.separated rfl separated (items_closed ih hes)
    exact common.enclosed opened rfl rfl inner closed rfl
  | group paren close opened closed _ ih =>
    obtain ⟨e, he, -⟩ := by simpa [Build.expr] using built
    exact common.enclosed opened rfl rfl (ih he) closed rfl
  | pair paren comma close opened between closed _ _ ihl ihr =>
    obtain ⟨l, hl, r, hr, -⟩ := by simpa [Build.expr] using built
    exact common.pair opened between closed (ihl hl) (ihr hr)
  | map brace close items opened closed colons _ _ separated ihk ihv =>
    obtain ⟨es, hes, -⟩ := by simpa [Build.expr] using built
    rw [Build.pairs_eq_ok, List.forall₂_map_left_iff] at hes
    have each : ∀ i ∈ items, ∀ x ∈ i.steps, x.Closed := by
      intro i hi
      obtain ⟨_, hkey, hvalue⟩ := exists_of_forall₂ hes i hi
      exact common.item (colons i hi) (ihk i hi hkey) (ihv i hi hvalue)
    have inner := common.separated rfl separated (List.forall_mem_map.2 each)
    exact common.enclosed opened rfl rfl inner closed rfl
  | choice kwIf kwThen kwElse hif hthen helse _ _ _ iha ihb ihc =>
    obtain ⟨a, ha, b, hb, c, hc, -⟩ := by simpa [Build.expr] using built
    exact common.choice hif hthen helse (iha ha) (ihb hb) (ihc hc)
  | @apply place name paren close arguments xs named opened closed _ separated ih =>
    obtain ⟨es, hes, -⟩ := by simpa [Build.expr] using built
    have inner := common.separated rfl separated (items_closed ih hes)
    exact List.forall_mem_cons.2 ⟨common.name named place,
      common.enclosed opened rfl rfl inner closed rfl⟩
  | @struct place name brace close ms xs named opened closed fits _ separated ih =>
    obtain ⟨es, hes, -⟩ := by simpa [Build.expr] using built
    have keys := exists_of_forall₂ (List.forall₂_map_left_iff.1 (keys_built hes))
    have values := exists_of_forall₂ (List.forall₂_map_left_iff.1 (Build.members_eq_ok hes))
    have each : ∀ m ∈ ms, ∀ x ∈ m.steps, x.Closed := by
      intro m hm
      obtain ⟨key, colon⟩ := fits m hm
      obtain ⟨_, hkey⟩ := keys m hm
      obtain ⟨_, hvalue⟩ := values m hm
      exact common.member (KeyToken.closed key hkey) colon (ih m hm hvalue)
    have inner := common.separated rfl separated (List.forall_mem_map.2 each)
    exact List.forall_mem_cons.2 ⟨common.name named place,
      common.enclosed opened rfl rfl inner closed rfl⟩
  | bare _ ih => exact ih built
  | accessed suffixes _ _ _ fits _ ih ihs =>
    obtain ⟨b, hb, as, has, -⟩ := by simpa only [Build.expr, Build.bind_eq_ok] using built
    refine List.forall_mem_append.2 ⟨ih hb, fun x hx => ?_⟩
    obtain ⟨a, ha, hx⟩ := List.mem_flatMap.1 hx
    refine common.suffix (fits a ha) (fun i hi => ?_) x hx
    obtain ⟨_, inside⟩ := suffixes_built has a ha i hi
    exact ihs a ha i hi inside
  | unsigned _ ih => exact ih built
  | signed signs _ ops _ ih =>
    obtain ⟨b, hb, -⟩ := by simpa [Build.expr] using built
    exact List.forall_mem_append.2 ⟨common.signs ops, ih hb⟩
  | single _ ih => exact ih built
  | chain links _ _ ops _ _ ih ihs =>
    obtain ⟨b, hb, placed, hplaced, -⟩ := by simpa only [Build.expr, Build.bind_eq_ok] using built
    rw [Build.operands_eq_ok, List.forall₂_map_left_iff] at hplaced
    refine List.forall_mem_append.2 ⟨ih hb, fun x hx => ?_⟩
    obtain ⟨l, hl, hx⟩ := List.mem_flatMap.1 hx
    obtain ⟨_, -, -, operand⟩ := exists_of_forall₂ hplaced l hl
    exact common.link (ops l hl) (ihs l hl operand) x hx

end Parser

end Wdl
