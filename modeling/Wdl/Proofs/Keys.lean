import Wdl.Proofs.RoundTrips

/-!
# Wdl.Proofs.Keys -- which keys of struct literals survive rendering

A key may be written bare or between marks, and either way it becomes the same text, which is
rendered bare. So a literal can be read back from its rendering if its keys may be names. That is
also necessary. Backslashes and marks are counted: decoding makes no more of them, so the token of a
key has as many as the key, and two more if it stands between marks. But in the rendering there are
no more than in the keys, and all tokens are found there.

* `active cs` counts the backslashes and marks of a text. `active_decode` says that decoding makes
  none, whatever the table of names: an escape gives one code point besides the characters that it
  keeps, and its own backslash has been counted.
* `FrontEnd.Reads.marked`: a literal between marks has two of them.
* `KeyBuilt` and `KeysWritten` relate keys to the tokens that they are built from;
  `Script.struct_keys` finds these in the script of a struct literal.
* `identifiers_of_tokens` is the argument by counting, and `identifiers_of_parsed` applies it to a
  whole text.
* `parseExpr_render_struct` is the result.
-/

namespace Wdl

open Scan
open Wdl.Parser (Step Place Level Script KeyToken MemberPiece)

variable {fe : FrontEnd} {rules : Rules} {A : Expect}

/-! ## Active characters

A mark or backslash in a key must come from somewhere. It is enough to count them together:
whichever of them an escape stands for, it is written with at least one. -/

namespace Escape

/-- A backslash or a mark, which between marks is not always taken for itself. -/
def isActive (c : Char) : Bool := c = '\\' || c = '\'' || c = '"'

/-- How many characters of a text are active. -/
def active (cs : List Char) : Nat := cs.countP isActive

@[simp] theorem active_nil : active [] = 0 := rfl

@[simp] theorem active_append (cs ds : List Char) : active (cs ++ ds) = active cs + active ds :=
  List.countP_append

/-- The first character counts for itself. -/
theorem active_cons (c : Char) (cs : List Char) : active (c :: cs) = active [c] + active cs :=
  active_append [c] cs

/-- There are no active characters if none of the characters is active. -/
theorem active_eq_zero {cs : List Char} : active cs = 0 ↔ ∀ c ∈ cs, isActive c = false := by
  simp [active, List.countP_eq_zero]

theorem active_le_length (cs : List Char) : active cs ≤ cs.length := List.countP_le_length

/-- An escape stands for no more active characters than are in it, its backslash among them. -/
theorem Means.active_le {names : CharacterNames} {keeps : Char → Bool} {next body : List Char}
    {out : Text} (means : Means names keeps next body out) :
    active out.chars ≤ 1 + active body := by
  have short (p : CodePoint) : active (Text.chars [p]) ≤ 1 := active_le_length [p.shown]
  cases means with
  | lineFeed => exact Nat.zero_le _
  | itself => exact Nat.le_add_left _ 1
  | @control c d => exact Nat.le_add_right_of_le (active_le_length [d])
  | octal => exact Nat.le_add_right_of_le (short _)
  | code => exact Nat.le_add_right_of_le (short _)
  | named => exact Nat.le_add_right_of_le (short _)
  | @other c => exact Nat.le_of_eq (active_cons '\\' [c])

/-- Decoding makes no characters active. -/
theorem active_decode {names : CharacterNames} {raw : List Char} {out : Text}
    (h : decode raw names = some out) : active out.chars ≤ active raw := by
  rw [decode_eq_some_iff] at h
  induction h with
  | nil => exact Nat.le_refl 0
  | @char c raw out _ _ ih =>
    rw [Text.chars_cons, CodePoint.shown_char, active_cons, active_cons c raw]
    exact Nat.add_le_add_left ih _
  | @escape body next here out means _ ih =>
    have escape := means.active_le
    have backslash : active ['\\'] = 1 := rfl
    rw [Text.chars_append, active_append, active_cons, active_append]
    omega

end Escape

open Escape (active active_append active_cons)

/-! ## Tokens with marks -/

/-- Only literals between marks are found as such. -/
theorem quotedLength?_of_plain? {cs : List Char} {q : Quote} {n : Nat}
    (h : plain? fe A cs = some (.quoted q, n)) : quotedLength? q cs = some n :=
  (class?_eq_some (plain?_found h)).2.2

/-- A literal between marks starts and ends with its mark. -/
theorem marked_of_quotedLength? {chars rest : List Char} {q : Quote}
    (found : quotedLength? q (chars ++ rest) = some chars.length) :
    ∃ raw, chars = q.char :: (raw ++ [q.char]) := by
  obtain ⟨c, cs, rfl⟩ := List.exists_cons_of_ne_nil
    (List.ne_nil_of_length_pos ((steady_quoted q).fits found).1)
  by_cases mark : c = q.char
  · subst mark
    have ends : ∀ {n : Nat}, n + 1 = cs.length + 1 → ((cs ++ rest).take n).getLast? = some q.char →
        ∃ raw, q.char :: cs = q.char :: (raw ++ [q.char]) := by
      intro n size last
      rw [Nat.succ.inj size, List.take_left, List.getLast?_eq_some_iff] at last
      obtain ⟨raw, rfl⟩ := last
      exact ⟨raw, rfl⟩
    cases q with
    | double =>
      change (doubleRest? false (cs ++ rest)).map (· + 1) = some (cs.length + 1) at found
      obtain ⟨n, size, eq⟩ := Option.map_eq_some_iff.1 found
      exact ends eq (doubleRest?_ends size).2.2
    | single =>
      change (singleRest? (cs ++ rest)).map (· + 1) = some (cs.length + 1) at found
      obtain ⟨n, size, eq⟩ := Option.map_eq_some_iff.1 found
      exact ends eq (singleRest?_ends size).2.2
  · rw [List.cons_append, quotedLength?_of_other mark] at found
    cases found

/-- A literal between marks that is found starts and ends with its mark. -/
theorem FrontEnd.Reads.marked {gap chars rest : List Char} {q : Quote}
    (h : fe.Reads A gap (.quoted q) chars rest) : ∃ raw, chars = q.char :: (raw ++ [q.char]) :=
  marked_of_quotedLength? (quotedLength?_of_plain? (h.plain rfl).2.2)

/-- Each token of a legible text is found somewhere. -/
theorem Legible.found_steps {ls : List Lexeme} {rest : List Char} (h : Legible fe A ls rest)
    (at_ : Nat) : ∀ x ∈ stepsFrom at_ ls,
      ∃ B gap more, fe.Reads B gap x.token.kind x.token.chars more := by
  induction ls generalizing A at_ with
  | nil => simp [stepsFrom]
  | cons l ls ih =>
    rw [stepsFrom, List.forall_mem_cons]
    exact ⟨⟨A, l.gap, _, h.1⟩, ih h.2 _⟩

/-- The characters of some tokens. -/
def tokenText (xs : List Step) : List Char := xs.flatMap fun x => x.token.chars

/-- The characters of its tokens stand in a text. -/
theorem tokenText_sublist (at_ : Nat) (ls : List Lexeme) :
    (tokenText (stepsFrom at_ ls)).Sublist (spelled ls) := by
  induction ls generalizing at_ with
  | nil => exact .refl _
  | cons l ls ih =>
    rw [spelled_cons]
    exact ((ih _).append_left l.chars).trans (List.sublist_append_right _ _)

/-! ## Keys of struct literals -/

/-- What a key is built to: a bare key is not reserved, one between marks is decoded. -/
def KeyBuilt (rules : Rules) : Surface.Key → Text → Prop
  | .word w, key => .ofString w.text = key ∧ w.text ∉ rules.reserved
  | .quoted q, key => Build.quotedText rules.names q = .ok key

/-- The keys of the members are built one by one. -/
theorem keys_built {ms : List (Surface.Key × Surface.Expr)} {members : List (Text × Expr)}
    (h : Build.members rules ms = .ok members) :
    List.Forall₂ (fun m member => KeyBuilt rules m.1 member.1) ms members := by
  induction ms generalizing members with
  | nil =>
    cases h
    exact .nil
  | cons m ms ih =>
    obtain ⟨key, value⟩ := m
    cases key with
    | word w =>
      obtain ⟨e, -, ⟨u, allowed⟩, rest, hrest, rfl⟩ := by simpa [Build.members] using h
      exact .cons ⟨rfl, unreserved_of_checkName allowed⟩ (ih hrest)
    | quoted q =>
      obtain ⟨key, decoded, e, -, rest, hrest, rfl⟩ := by simpa [Build.members] using h
      exact .cons decoded (ih hrest)

/-- Keys are built from tokens that stand, in this order, among some. -/
def KeysWritten (rules : Rules) (xs : List Step) (keys : List Text) : Prop :=
  ∃ ks : List KeyToken, (ks.map KeyToken.step).Sublist xs ∧
    List.Forall₂ (fun k key => k.Fits ∧ KeyBuilt rules k.key key) ks keys

/-- Among more tokens the keys still stand in their order. -/
theorem KeysWritten.among {xs ys : List Step} {keys : List Text} (h : KeysWritten rules xs keys)
    (sub : xs.Sublist ys) : KeysWritten rules ys keys := by
  obtain ⟨ks, written, built⟩ := h
  exact ⟨ks, written.trans sub, built⟩

namespace Parser

/-- Items behind commas stand in their order. -/
theorem More.sublist {after : Expect} {items : List (List Step)} {xs : List Step}
    (h : More after items xs) : items.flatten.Sublist xs := by
  induction h with
  | nil => exact .refl _
  | trailing comma _ => exact List.nil_sublist _
  | cons comma _ _ ih => exact (List.Sublist.append_left ih _).cons _

/-- Items with commas between them stand in their order. -/
theorem Separated.sublist {after : Expect} {items : List (List Step)} {xs : List Step}
    (h : Separated after items xs) : items.flatten.Sublist xs := by
  cases h with
  | nil => exact .refl _
  | cons more => exact List.Sublist.append_left more.sublist _

/-- The keys of members stand in front of their values. -/
theorem keys_sublist (ms : List MemberPiece) :
    (ms.map fun m => m.key.step).Sublist (ms.map MemberPiece.steps).flatten := by
  induction ms with
  | nil => exact .refl _
  | cons m ms ih => exact (ih.trans (List.sublist_append_right _ _)).cons_cons _

/-- The keys of a struct literal are built from tokens that write it. -/
theorem Script.struct_keys {level : Level} {place : Place} {σ : Surface.Expr}
    {xs : List Step} (h : Script level place σ xs) {r : Range} {members : List (Text × Expr)}
    {typeName : Option String} (built : Build.expr rules σ = .ok (.struct r members typeName)) :
    KeysWritten rules xs (members.map Prod.fst) := by
  induction h generalizing r with
  | boolean t value kind => cases built
  | null t kind => cases built
  | number k t kind =>
    obtain ⟨value, -, eq⟩ := by simpa [Build.expr] using built
    cases value <;> cases eq
  | name t kind => simp [Build.expr] at built
  | string q start close pieces opened closed fits _ _ => simp [Build.expr] at built
  | array bracket close items opened closed _ separated _ => simp [Build.expr] at built
  | group paren close opened closed _ ih =>
    -- parentheses change the range of what is inside, and only that
    obtain ⟨e, inner, eq⟩ := by simpa [Build.expr] using built
    cases e with
    | struct r' members' typeName' =>
      cases eq
      exact (ih inner).among ((List.sublist_append_left _ _).cons _)
    | _ => cases eq
  | pair paren comma close opened between closed _ _ _ _ => simp [Build.expr] at built
  | map brace close items opened closed colons _ _ separated _ _ => simp [Build.expr] at built
  | choice kwIf kwThen kwElse hif hthen helse _ _ _ _ _ _ => simp [Build.expr] at built
  | apply name paren close arguments named opened closed _ separated _ =>
    simp [Build.expr] at built
  | struct name brace close ms named opened closed fits _ separated _ =>
    obtain ⟨built, -⟩ := by simpa [Build.expr] using built
    have each := List.forall₂_map_left_iff.1 (keys_built built)
    refine ⟨ms.map MemberPiece.key, ?_, ?_⟩
    · rw [List.map_map]
      have inside := (keys_sublist ms).trans separated.sublist
      exact ((inside.trans (List.sublist_append_left _ _)).cons _).cons _
    · rw [List.forall₂_map_left_iff, List.forall₂_map_right_iff]
      exact (List.forall₂_and_left _ _).2 ⟨fun m hm => (fits m hm).1, each⟩
  | bare _ ih => exact ih built
  | accessed suffixes ne _ inner fits _ ih _ =>
    obtain ⟨a, r', b, eq⟩ := built_access ne built
    cases a <;> cases eq
  | unsigned _ ih => exact ih built
  | signed signs ne ops _ _ =>
    rcases built_signed ne built with ⟨value, r', eq⟩ | ⟨r', op, b, eq⟩
    · cases value <;> cases eq
    · cases eq
  | single _ ih => exact ih built
  | chain links ne inner ops _ _ ih _ =>
    obtain ⟨r', op, left, right, eq⟩ := built_chain ne built
    cases eq

end Parser

/-- A key that is built from a token that is found is an identifier and the text of the token, or
the token has more active characters. -/
theorem KeyBuilt.identifier_or_active {k : KeyToken} {key : Text}
    (built : KeyBuilt rules k.key key) (fits : k.Fits) {gap more : List Char}
    (reads : fe.Reads A gap k.step.token.kind k.step.token.chars more) :
    IsKey rules key ∧ key.chars = k.step.token.chars ∨
      active key.chars < active k.step.token.chars := by
  cases k with
  -- a bare key is a word that is not reserved, character for character
  | word t =>
    have kind : t.kind = .name := fits
    obtain ⟨rfl, unreserved⟩ := built
    have chars : (Parser.word t).text.toList = t.chars := String.toList_ofList
    refine .inl ⟨⟨Text.plain_ofString _, ?_, ?_⟩, (Text.chars_ofString _).trans chars⟩
    · rw [Text.shown_ofString, chars]
      exact ((reads.looked 0).name kind).1
    · rw [Text.shown_ofString]
      exact unreserved
  -- a key between marks has its active characters and two more in its token
  | quoted q t =>
    have kind : t.kind = .quoted q := fits
    change fe.Reads A gap t.kind t.chars more at reads
    rw [kind] at reads
    obtain ⟨raw, chars⟩ := reads.marked
    have decoded : Escape.decode raw rules.names = some key := by
      have h := decodeText_eq_ok built
      change Escape.decode ((t.chars.drop 1).dropLast) rules.names = some key at h
      rwa [chars, List.drop_one, List.tail_cons, List.dropLast_concat] at h
    have le := Escape.active_decode decoded
    have mark : active [q.char] = 1 := by cases q <;> rfl
    refine .inr ?_
    show active key.chars < active t.chars
    rw [chars, active_cons, active_append, mark]
    omega

/-- Keys have no more active characters than the tokens they are built from. If they have as many,
they are identifiers. -/
theorem identifiers_of_tokens {ks : List KeyToken} {keys : List Text}
    (h : List.Forall₂ (fun k key => k.Fits ∧ KeyBuilt rules k.key key) ks keys)
    (found : ∀ k ∈ ks, ∃ B gap more,
      fe.Reads B gap k.step.token.kind k.step.token.chars more) :
    active (keys.flatMap Text.chars) ≤ active (tokenText (ks.map KeyToken.step)) ∧
      (active (tokenText (ks.map KeyToken.step)) ≤ active (keys.flatMap Text.chars) →
        ∀ key ∈ keys, IsKey rules key) := by
  induction h with
  | nil => exact ⟨Nat.le_refl 0, fun _ => by simp⟩
  | @cons k key ks keys built _ ih =>
    obtain ⟨⟨B, gap, more, reads⟩, others⟩ := List.forall_mem_cons.1 found
    obtain ⟨le, identifiers⟩ := ih others
    have tokens : active (tokenText ((k :: ks).map KeyToken.step)) =
        active k.step.token.chars + active (tokenText (ks.map KeyToken.step)) :=
      active_append _ _
    rw [tokens, List.flatMap_cons, active_append, List.forall_mem_cons]
    rcases built.2.identifier_or_active built.1 reads with ⟨identifier, same⟩ | lt
    · rw [same]
      exact ⟨by omega, fun few => ⟨identifier, identifiers (by omega)⟩⟩
    · exact ⟨by omega, fun few => by omega⟩

/-- In a text with no more active characters than the keys of a struct literal have, all keys are
identifiers. -/
theorem identifiers_of_parsed {source : SourceText} {r : Range} {members : List (Text × Expr)}
    {typeName : Option String}
    (parsed : (parseExpr rules source).result = .ok (.struct r members typeName))
    (few : active source.chars ≤ active ((members.map Prod.fst).flatMap Text.chars)) :
    ∀ m ∈ members, IsKey rules m.1 := by
  obtain ⟨σ, ls, rest, legible, spells, script, built, -⟩ := parseExpr_legible parsed
  obtain ⟨ks, written, keys⟩ := script.struct_keys built
  have inText : active (tokenText (ks.map KeyToken.step)) ≤ active source.chars := by
    have whole : active (Parser.terminated source.chars) = active source.chars := by
      unfold Parser.terminated
      split
      · rfl
      · exact active_append _ _
    rw [← whole, spells]
    have among := (written.flatMap fun x => x.token.chars).trans (tokenText_sublist 0 ls)
    exact (among.trans (List.sublist_append_left _ rest)).countP_le
  have identifiers := (identifiers_of_tokens keys fun k hk =>
    legible.found_steps 0 _ (written.subset (List.mem_map_of_mem hk))).2 (Nat.le_trans inText few)
  exact fun m hm => identifiers m.1 (List.mem_map_of_mem hm)

/-! ## Round trips -/

/-- Members with the same content have the same keys. -/
theorem keys_of_views {ms ms' : List (Text × Expr)}
    (h : View.normalItems (viewMembers ms) = View.normalItems (viewMembers ms')) :
    ms.map Prod.fst = ms'.map Prod.fst := by
  induction ms generalizing ms' with
  | nil =>
    cases ms' with
    | nil => rfl
    | cons m ms' => cases h
  | cons m ms ih =>
    cases ms' with
    | nil => cases h
    | cons m' ms' =>
      obtain ⟨first, rest⟩ := List.cons.inj h
      have key : m.1 = m'.1 := by
        simp only [View.normal, View.normalItems] at first
        grind
      rw [List.map_cons, List.map_cons, key, ih rest]

/-- What has the content of a struct literal is one with the same keys. -/
theorem struct_of_same {e : Expr} {r : Range} {members : List (Text × Expr)}
    {typeName : Option String}
    (same : (Node.expr e).same (.expr (.struct r members typeName)) = true) :
    ∃ r' members' typeName', e = .struct r' members' typeName' ∧
      members'.map Prod.fst = members.map Prod.fst := by
  have views : e.view.normal = (Expr.struct r members typeName).view.normal := View.same_iff.1 same
  cases e with
  | struct r' members' typeName' =>
    have items : View.normalItems (viewMembers members') =
        View.normalItems (viewMembers members) := by
      simp only [Expr.view, View.normal, View.normalEntries] at views
      grind
    exact ⟨r', members', typeName', rfl, keys_of_views items⟩
  | _ => simp [Expr.view, View.normal] at views

/-- No character of a word is active. -/
theorem active_word {word : List Char} (h : IsWord word) : active word = 0 := by
  have named : ∀ c : Char, isNameChar c = true → Escape.isActive c = false := by
    intro c name
    rw [Bool.eq_false_iff]
    intro is
    have either : (c = '\\' ∨ c = '\'') ∨ c = '"' := by simpa [Escape.isActive, or_assoc] using is
    rcases either with (rfl | rfl) | rfl <;> revert name <;> decide
  obtain ⟨c, more, rfl, letter, rest⟩ := isWord_iff.1 h
  have first : isNameChar c = true := by simp [isNameChar, letter]
  exact Escape.active_eq_zero.2
    (List.forall_mem_cons.2 ⟨named c first, fun d hd => named d (rest d hd)⟩)

/-- Of members that are rendered, only the keys have active characters if the values have none. -/
theorem active_renderMembers {members : List (Text × Expr)}
    (plain : ∀ m ∈ members, active m.2.render.chars = 0) :
    active ((renderMembers members).flatMap Text.chars) =
      active ((members.map Prod.fst).flatMap Text.chars) := by
  induction members with
  | nil => rfl
  | cons m members ih =>
    obtain ⟨none, others⟩ := List.forall_mem_cons.1 plain
    have item : active (m.1 ++ .ofString ": " ++ m.2.render).chars = active m.1.chars := by
      rw [Text.chars_append, Text.chars_append, active_append, active_append, none]
      rfl
    rw [renderMembers, List.flatMap_cons, List.map_cons, List.flatMap_cons, active_append,
      active_append, item, ih others]

/-- What joins the members of a literal has no active characters. -/
theorem active_join (texts : List Text) :
    active (Text.join ", " texts).chars = active (texts.flatMap Text.chars) := by
  rw [Text.chars_join]
  cases texts with
  | nil => rfl
  | cons s texts =>
    rw [List.map_cons, intercalate_cons, List.flatMap_cons, active_append, active_append]
    congr 1
    induction texts with
    | nil => rfl
    | cons t texts ih =>
      have comma : active ", ".toList = 0 := rfl
      rw [List.map_cons, List.flatMap_cons, List.flatMap_cons, active_append, active_append,
        active_append, ih, comma, Nat.zero_add]

/-- A struct literal is rendered with the active characters of its keys, if its values have none. -/
theorem active_render_struct {r : Range} {members : List (Text × Expr)}
    {typeName : Option String} (named : ∀ s ∈ typeName, IsWord s.toList)
    (plain : ∀ m ∈ members, active m.2.render.chars = 0) :
    active (Expr.struct r members typeName).render.chars =
      active ((members.map Prod.fst).flatMap Text.chars) := by
  have word : active (typeName.getD "object").toList = 0 := by
    cases typeName with
    | none => rfl
    | some s => exact active_word (named s rfl)
  rw [Expr.render, Text.chars_append, Text.chars_append, Text.chars_append, active_append,
    active_append, active_append, Text.chars_ofString, word, active_join,
      active_renderMembers plain]
  exact Nat.zero_add _

/-- The rendering of a struct or object literal that was parsed, and whose values are rendered
without marks and backslashes, is parsed again, by either front end, to a literal of the same
content just if all keys are identifiers. -/
theorem parseExpr_render_struct {source : SourceText} {r : Range} {members : List (Text × Expr)}
    {typeName : Option String}
    (parsed : (parseExpr rules source).result = .ok (.struct r members typeName))
    (values : ∀ m ∈ members, (Node.expr m.2).Everywhere (Node.Sayable rules))
    (plain : ∀ m ∈ members, active m.2.render.chars = 0)
    (fe : FrontEnd) (uri abspath : String) :
    (∃ written e', (Expr.struct r members typeName).render = .ofString written ∧
      (parseExpr ⟨fe, rules.reserved, rules.names⟩ (.ofString written uri abspath)).result =
        .ok e' ∧
      (Node.expr e').same (.expr (.struct r members typeName)) = true) ↔
    ∀ m ∈ members, IsKey rules m.1 := by
  constructor
  · rintro ⟨written, e', rendered, again, same⟩
    obtain ⟨r', members', typeName', rfl, keys⟩ := struct_of_same same
    have spoken : (Expr.struct r members typeName).Spoken rules := (parseExpr_spoken parsed).here
    have text := @active_render_struct r _ _ (fun s mem => (spoken s mem).1.1) plain
    rw [← keys, rendered, Text.chars_ofString] at text
    have identifiers := identifiers_of_parsed again (Nat.le_of_eq text)
    intro m hm
    have mem : m.1 ∈ members'.map Prod.fst := by
      rw [keys]
      exact List.mem_map_of_mem hm
    obtain ⟨m', hm', eq⟩ := List.mem_map.1 mem
    rw [← eq]
    exact identifiers m' hm'
  · intro keys
    refine parseExpr_render parsed (.intro keys fun n hn => ?_) fe uri abspath
    obtain ⟨m, hm, rfl⟩ := List.mem_map.1 hn
    exact values m hm

/-- A key with a space in it cannot be read from its rendering. -/
example : ((parseExpr ⟨.tree, reservedWords, .none⟩
    (.ofString "object \x7b \"a b\": x \x7d" "" "")).result.toOption.map fun e =>
      (parseExpr ⟨.tree, reservedWords, .none⟩
        (.ofString e.render.shown "" "")).result.toOption.isSome) = some false := by
  decide +kernel

end Wdl
