import Wdl.Proofs.Vocabulary

/-!
# Wdl.Proofs.RoundTrips -- what was parsed is parsed again from its rendering

An expression that was parsed can be written in most ways already: its names are words that spell no
keyword, its literal texts are apart, and the options of its placeholders have different names. What
is left to ask for is listed in `Node.Sayable`, and below nodes that are sayable everywhere the
rendering is parsed again, by either front end, to an expression of the same content. The rendering
is a `Text`; that it is the text of some characters, and so can be parsed at all, is part of what is
said.

* `Node.Sayable rules n` asks of a node what parsing does not make sure of: numbers that read back,
  literal text without placeholders and surrogates, keys that are names.
* `Node.Everywhere.writable` adds what parsing does make sure of, and arrives at `Node.Writable` of
  `Wdl.Proofs.Vocabulary`. `parseExpr_render` is the result for any expression.
* `parseExpr_render_text` is about strings without placeholders. For them what is asked for is also
  necessary: the literal text behind the mark is read from the rendering and decoded
  (`parseExpr_text`), and then no placeholder can open in it.
* `parseExpr_render_options` is about strings whose placeholders hold names and options.
-/

namespace Wdl

open Scan
open Wdl.Parser (Step Place Level Script PartPiece Suffix)

variable {rules : Rules}

/-! ## Renderings of what was parsed -/

/-- What is left to ask of a node for its text to say it: numbers are finite and read from their own
text, and are not accessed; literal text is not empty and opens no placeholder; the keys of structs
may be names; and the values of options stand for themselves between marks, while no keyword is
spelled behind them. None of these texts has a surrogate, for no source text has one. -/
def Node.Sayable (rules : Rules) : Node → Prop
  | .expr (.float _ x) => x.Readable
  | .expr (.string _ parts) =>
    ∀ text : Text, .text text ∈ parts → text ≠ [] ∧ text.Plain ∧ Unopened text.chars
  | .expr (.struct _ members _) => ∀ m ∈ members, IsKey rules m.1
  | .expr (.get _ e _) => e.isNumber = false
  | .expr (.index _ e _) => e.isNumber = false
  | .placeholder p =>
    (∀ o ∈ p.options, o.2.Plain ∧ ∀ c ∈ o.2.chars, c ≠ '"' ∧ c ≠ '\\' ∧ c ≠ '\n') ∧
      (p.options ≠ [] → StartsFree Expect.afterQuoted (p.expr.lexemes space .placeholder))
  | _ => True

/-- A part of an expression; if it is a placeholder, its options have different names. -/
def Node.Keyed : Node → Prop
  | .expr _ => True
  | .placeholder p => (p.options.map Prod.fst).Nodup
  | _ => False

theorem Node.Keyed.child {n m : Node} (keyed : n.Keyed) (said : n.Spoken rules)
    (hm : m ∈ n.children) : m.Keyed := by
  cases n with
  | placeholder p =>
    have only : m = .expr p.expr := by simpa [Node.children] using hm
    rw [only]
    trivial
  | expr e =>
    change m ∈ e.children at hm
    cases e with
    | string r parts =>
      obtain ⟨p, mem, rfl⟩ := mem_partNodes.1 hm
      exact said.2 p mem
    | _ =>
      -- below any other expression are expressions
      have only : ∃ e', m = .expr e' := by
        simp only [Expr.children, memberNodes, List.mem_map, List.mem_flatMap, List.mem_cons,
          List.not_mem_nil, or_false] at hm <;> grind
      obtain ⟨e', rfl⟩ := only
      trivial
  | _ => cases keyed

/-- Nodes that were parsed and are sayable are writable. -/
theorem Node.Everywhere.writable {n : Node} (sayable : n.Everywhere (Node.Sayable rules))
    (spoken : n.Everywhere (Node.Spoken rules)) (lawful : n.Everywhere (Node.Lawful rules))
    (keyed : n.Keyed) : n.Everywhere (Node.Writable rules) := by
  induction sayable with
  | @intro n here _ ih =>
    have said := spoken.here
    have law := lawful.here
    refine .intro ?_ fun m hm =>
      ih m hm (spoken.child hm) (lawful.child hm) (keyed.child said hm)
    cases n with
    | placeholder p => exact ⟨fun o ho => ⟨law o ho, here.1 o ho⟩, keyed, here.2⟩
    | expr e =>
      cases e with
      | int r value radix => exact law
      | float r x => exact here
      | string r parts => exact ⟨here, said.1⟩
      | struct r members typeName => exact ⟨here, said⟩
      | ident r name => exact said
      | get r e member => exact ⟨here, said⟩
      | index r e i => exact here
      | unary r op e => exact law
      | apply r function arguments => exact said
      | _ => trivial
    | _ => cases keyed

/-- The rendering of an expression that was parsed is parsed again, by either front end, to an
expression of the same content, if every node of it is sayable. -/
theorem parseExpr_render {source : SourceText} {e : Expr}
    (parsed : (parseExpr rules source).result = .ok e)
    (sayable : (Node.expr e).Everywhere (Node.Sayable rules)) (fe : FrontEnd)
    (uri abspath : String) :
    ∃ written e', e.render = .ofString written ∧
      (parseExpr ⟨fe, rules.reserved, rules.names⟩ (.ofString written uri abspath)).result =
        .ok e' ∧
      (Node.expr e').same (.expr e) = true := by
  obtain ⟨σ, -, built⟩ := Parsed.ofSurface_eq_ok parsed
  have lawful := Build.lawful_expr rules σ (Builder.gives_check built)
  have writable := sayable.writable (parseExpr_spoken parsed) lawful trivial
  have writable' : (Node.expr e).Everywhere (Node.Writable ⟨fe, rules.reserved, rules.names⟩) :=
    writable.imp fun n h => h
  obtain ⟨written, e', text, again, view⟩ := e.parse_render writable' uri abspath
  exact ⟨written, e', text, again, View.same_iff.2 (congrArg View.normal view)⟩

/-! ## What operations are built to

An expression with an access, a sign or an operator at its root is built to one of these, or to a
number. So where a string is built, its script has none of them. -/

/-- The accesses of an expression are built to as many. -/
theorem accesses_ne_nil {suffixes : List Suffix} (ne : suffixes ≠ []) {as : List Build.Access}
    (built : Build.accesses rules (suffixes.map Suffix.accessor) = .ok as) : as ≠ [] := by
  obtain ⟨a, suffixes, rfl⟩ := List.exists_cons_of_ne_nil ne
  rintro rfl
  cases a <;> simp [Suffix.accessor, Build.accesses] at built

/-- An operand with accesses is built to the last of them, applied to all before it. -/
theorem built_access {σ : Surface.Expr} {suffixes : List Suffix} {e : Expr} (ne : suffixes ≠ [])
    (built : Build.expr rules (.access σ (suffixes.map Suffix.accessor)) = .ok e) :
    ∃ (a : Build.Access) (r : Range) (b : Expr), e = a.apply r b := by
  obtain ⟨b, -, as, has, rfl⟩ := by simpa [Build.expr] using built
  obtain ⟨init, a, rfl⟩ := (List.eq_nil_or_concat' as).resolve_left (accesses_ne_nil ne has)
  cases rules.frontEnd with
  | tree =>
    rw [Build.applyAccesses, Build.nestAccesses, List.foldl_append]
    exact ⟨a, _, _, rfl⟩
  | flat =>
    rw [Build.applyAccesses, Build.foldAccesses, List.foldl_append]
    exact ⟨a, _, _, rfl⟩

/-- An operand with prefix operators is built to a number, or to the first of them, applied to the
rest. -/
theorem built_signed {σ : Surface.Expr} {signs : List Parser.Sign} {e : Expr} (ne : signs ≠ [])
    (built : Build.expr rules (.signed (signs.map Parser.Sign.sign) σ) = .ok e) :
    (∃ (value : Build.NumberValue) (r : Range), e = value.expr r) ∨
      ∃ r op b, e = .unary r op b := by
  obtain ⟨b, -, rfl⟩ := by simpa [Build.expr] using built
  obtain ⟨x, signs, rfl⟩ := List.exists_cons_of_ne_nil ne
  rw [Parser.applySigns_eq, List.map_cons, Build.nestSigns, Build.applySign.eq_def]
  split
  · exact .inl ⟨.int _ _, _, rfl⟩
  · exact .inl ⟨.int _ _, _, rfl⟩
  · exact .inl ⟨.float _, _, rfl⟩
  · exact .inl ⟨.float _, _, rfl⟩
  · exact .inr ⟨_, _, _, rfl⟩

/-- A chain is built to an operator applied to what is on either side. -/
theorem built_chain {σ : Surface.Expr} {links : List Parser.Link} {e : Expr} (ne : links ≠ [])
    (built : Build.expr rules (.chain σ (links.map Parser.Link.link)) = .ok e) :
    ∃ r op left right, e = .binary r op left right := by
  obtain ⟨b, -, placed, hplaced, rfl⟩ := by simpa [Build.expr] using built
  exact nestChain_eq_binary rules.frontEnd (_, b) (operands_ne_nil ne hplaced)

/-! ## Strings

The rendering of a string starts with a mark. A script that starts so writes a string, perhaps with
something behind it; that nothing is behind it follows from what it is built to. -/

/-- The tokens of a string that start with its mark are its own. -/
theorem Parser.Script.string_cases {level : Level} {place : Place} {σ : Surface.Expr}
    {xs : List Step} (h : Script level place σ xs) {q : Quote} {r : Range} {parts : List Part}
    (first : ∀ x ∈ xs.head?, x.token.kind = .mark q)
    (built : Build.expr rules σ = .ok (.string r parts)) :
    ∃ start close, ∃ pieces : List PartPiece,
      xs = ⟨start, Expect.inString q⟩ ::
        (pieces.flatMap (PartPiece.steps (.string q)) ++ [⟨close, Expect.afterOperand⟩]) ∧
      (∀ p ∈ pieces, p.Fits (.string q)) ∧
      List.Forall₂ (PartBuilt rules) (pieces.map PartPiece.part) parts := by
  induction h with
  | boolean t value kind => cases built
  | null t kind => cases built
  | number k t kind =>
    obtain ⟨value, -, eq⟩ := by simpa [Build.expr] using built
    cases value <;> cases eq
  | name t kind => simp [Build.expr] at built
  | string q' start close pieces opened closed fits _ _ =>
    have same : Terminal.mark q' = .mark q := opened.symm.trans (first _ rfl)
    cases same
    obtain ⟨raw, hraw, hparts, -⟩ := by simpa [Build.expr] using built
    exact ⟨start, close, pieces, rfl, fits, parts_built hraw hparts⟩
  | array bracket close items opened closed _ separated _ => simp [Build.expr] at built
  | group paren close opened closed _ ih =>
    -- a string in parentheses starts with those
    have other := first _ rfl
    rw [show paren.kind = _ from opened] at other
    cases other
  | pair paren comma close opened between closed _ _ _ _ => simp [Build.expr] at built
  | map brace close items opened closed colons _ _ separated _ _ => simp [Build.expr] at built
  | choice kwIf kwThen kwElse hif hthen helse _ _ _ _ _ _ => simp [Build.expr] at built
  | apply name paren close arguments named opened closed _ separated _ =>
    simp [Build.expr] at built
  | struct name brace close ms named opened closed fits _ separated _ => simp [Build.expr] at built
  | bare _ ih => exact ih first built
  | accessed suffixes ne _ inner fits _ ih _ =>
    obtain ⟨a, r', b, eq⟩ := built_access ne built
    cases a <;> cases eq
  | unsigned _ ih => exact ih first built
  | signed signs ne ops _ _ =>
    rcases built_signed ne built with ⟨value, r', eq⟩ | ⟨r', op, b, eq⟩
    · cases value <;> cases eq
    · cases eq
  | single _ ih => exact ih first built
  | chain links ne inner ops _ _ ih _ =>
    obtain ⟨r', op, left, right, eq⟩ := built_chain ne built
    cases eq

/-- Literal text in front of the parts of a string is the token in front, decoded. -/
theorem pieces_of_text {pieces : List PartPiece} {text : Text} {parts : List Part}
    (built : List.Forall₂ (PartBuilt rules) (pieces.map PartPiece.part)
      (.text text :: parts)) :
    ∃ u more, pieces = .text u :: more ∧ Escape.decode u.chars rules.names = some text := by
  match pieces, built with
  | .text u :: more, .cons first _ => exact ⟨u, more, rfl, first⟩
  | .hole opener close hole :: _, .cons first _ => exact first.elim

/-- Literal text of a string goes as far as it can. -/
theorem FrontEnd.Reads.inString {fe : FrontEnd} {q : Quote} {gap chars rest : List Char}
    (h : fe.Reads (Expect.inString q) gap (.stringText q) chars rest) :
    gap = [] ∧ 0 < chars.length ∧ stringTextLength q (chars ++ rest) = chars.length := by
  obtain ⟨none, found⟩ := h.literal rfl
  rw [literal?_inString, Option.map_eq_some_iff] at found
  obtain ⟨n, size, eq⟩ := found
  cases eq
  obtain ⟨whole, pos⟩ := positive?_eq_some.1 size
  exact ⟨none, pos, whole⟩

/-- A text that a token is found at the start of has that as its first token. -/
theorem Legible.first {fe : FrontEnd} {l : Lexeme} {ls : List Lexeme} {kind : Terminal}
    {chars rest rest' : List Char} (h : Legible fe Expect.expr (l :: ls) rest)
    (reads : fe.Reads Expect.expr [] kind chars rest')
    (text : spelled (l :: ls) ++ rest = chars ++ rest') :
    l.kind = kind ∧ l.chars = chars ∧ spelled ls ++ rest = rest' := by
  have found : fe.next Expect.expr ⟨0, chars ++ rest'⟩ =
      .ok (some ⟨kind, chars, 0⟩, ⟨0 + chars.length, rest'⟩) :=
    next_eq_some.2 ⟨[], rfl, rfl, rfl, reads⟩
  -- the scanner finds one token there
  have next := h.next 0
  rw [text, found] at next
  obtain ⟨token, behind⟩ := Prod.mk.inj (Except.ok.inj next)
  have same := Option.some.inj token
  exact ⟨(congrArg Token.kind same).symm, (congrArg Token.chars same).symm,
    (congrArg Cursor.rest behind).symm⟩

/-- If a string starts with literal text, that is what is read behind its mark, decoded. -/
theorem parseExpr_text {source : SourceText} {cs : List Char} {r : Range} {text : Text}
    {parts : List Part} (chars : Parser.terminated source.chars = '"' :: cs)
    (parsed : (parseExpr rules source).result = .ok (.string r (.text text :: parts))) :
    0 < stringTextLength .double cs ∧
      Escape.decode (cs.take (stringTextLength .double cs)) rules.names = some text := by
  obtain ⟨σ, ls, rest, legible, spells, script, built, -⟩ := parseExpr_legible parsed
  cases ls with
  | nil => exact absurd rfl script.ne_nil
  | cons l ls =>
    obtain ⟨mark, -, behind⟩ := legible.first
      (reads_mark (by decide) (.nil false) (by decide) rfl) (spells.symm.trans chars)
    have kind : ∀ x ∈ (stepsFrom 0 (l :: ls)).head?, x.token.kind = .mark .double := by
      rintro x hx
      cases hx
      exact mark
    obtain ⟨start, close, pieces, steps, fits, parts⟩ := script.string_cases kind built
    obtain ⟨u, more, rfl, decoded⟩ := pieces_of_text parts
    have isText : u.kind = .stringText .double := fits (.text u) (by simp)
    cases ls with
    | nil =>
      have size := congrArg List.length steps
      simp [stepsFrom, PartPiece.steps] at size
    | cons m ls =>
      -- the second token is the literal text
      obtain ⟨first, others⟩ := List.cons.inj steps
      have second := (List.cons.inj others).1
      have after : l.after = Expect.inString .double := congrArg Step.after first
      have kind : m.kind = .stringText .double :=
        (congrArg (fun x => x.token.kind) second).trans isText
      have chars : m.chars = u.chars := congrArg (fun x => x.token.chars) second
      have reads := legible.2.1
      rw [after, kind] at reads
      obtain ⟨gap, pos, size⟩ := reads.inString
      have whole : cs = m.chars ++ (spelled ls ++ rest) := by
        rw [← behind, spelled_cons, gap, List.nil_append, List.append_assoc]
      rw [whole, size, List.take_left, chars]
      rw [chars] at pos
      exact ⟨pos, decoded⟩

/-- A string without placeholders that was parsed is empty or one text. -/
theorem parts_of_bare {r : Range} {parts : List Part} (spoken : (Expr.string r parts).Spoken rules)
    (bare : ∀ p, .placeholder p ∉ parts) : parts = [] ∨ ∃ text, parts = [.text text] := by
  match parts, bare, spoken.1 with
  | [], _, _ => exact .inl rfl
  | .placeholder p :: _, bare, _ => exact absurd List.mem_cons_self (bare p)
  | [.text text], _, _ => exact .inr ⟨text, rfl⟩
  | .text _ :: .placeholder p :: _, bare, _ => exact absurd (by simp) (bare p)
  | .text _ :: .text _ :: _, _, apart =>
    have first := (List.isChain_cons_cons.1 apart).1
    simp [Part.isText] at first

/-- A list of parts with the content of one text is that text. -/
theorem parts_of_views {parts : List Part} {text : Text}
    (h : View.normalItems (viewParts parts) = [.text text]) : parts = [.text text] := by
  cases parts with
  | nil => cases h
  | cons part parts =>
    cases part with
    | text text' =>
      cases parts with
      | nil =>
        have eq : text' = text := by
          simpa [viewParts, View.normalItems, View.normal] using h
        rw [eq]
      | cons part parts => cases part <;> simp [viewParts, View.normalItems] at h
    | placeholder p =>
      obtain ⟨r, options, e⟩ := p
      simp [viewParts, View.normalItems, View.normal, Placeholder.view] at h

/-- What has the content of one literal text is that. -/
theorem string_of_same {e : Expr} {r : Range} {text : Text}
    (same : (Node.expr e).same (.expr (.string r [.text text])) = true) :
    ∃ r', e = .string r' [.text text] := by
  have views : e.view.normal = (Expr.string r [.text text]).view.normal := View.same_iff.1 same
  cases e with
  | string r' parts =>
    have items : View.normalItems (viewParts parts) = [.text text] := by
      simpa [Expr.view, View.normal, View.normalEntries, View.normalItems, viewParts] using views
    exact ⟨r', by rw [parts_of_views items]⟩
  | _ => simp [Expr.view, View.normal] at views

/-- The rendering of a string without placeholders that was parsed is parsed again, by either front
end, to a string of the same content just if it has no empty text, none with a surrogate, and none
that opens a placeholder. -/
theorem parseExpr_render_text {source : SourceText} {r : Range} {parts : List Part}
    (parsed : (parseExpr rules source).result = .ok (.string r parts))
    (bare : ∀ p, .placeholder p ∉ parts) (fe : FrontEnd) (uri abspath : String) :
    (∃ written e', (Expr.string r parts).render = .ofString written ∧
      (parseExpr ⟨fe, rules.reserved, rules.names⟩ (.ofString written uri abspath)).result =
        .ok e' ∧
      (Node.expr e').same (.expr (.string r parts)) = true) ↔
    ∀ text : Text, .text text ∈ parts → text ≠ [] ∧ text.Plain ∧ Unopened text.chars := by
  constructor
  -- what is read again has the same content, hence the same text between its marks
  · rintro ⟨written, e', rendered, again, same⟩ text mem
    have spoken : (Expr.string r parts).Spoken rules := (parseExpr_spoken parsed).here
    rcases parts_of_bare spoken bare with rfl | ⟨only, rfl⟩
    · cases mem
    · obtain rfl : text = only := by simpa using mem
      obtain ⟨r', rfl⟩ := string_of_same same
      have inner : (Expr.string r [.text text]).render =
          .ofString "\"" ++ renderText text ++ .ofString "\"" := by
        rw [Expr.render, renderParts, renderParts, List.flatten_cons, List.flatten_nil,
          List.append_nil]
      have plain : text.Plain := by
        have whole : Text.Plain (.ofString "\"" ++ renderText text ++ .ofString "\"") := by
          rw [← inner, rendered]
          exact Text.plain_ofString written
        simpa [plain_renderText, Text.plain_ofString] using whole
      have chars : Parser.terminated (SourceText.ofString written uri abspath).chars =
          '"' :: ((renderText text).chars ++ ['"', '\n']) := by
        have shape : written.toList = ('"' :: (renderText text).chars) ++ ['"'] := by
          rw [← Text.chars_ofString written, ← rendered, inner]
          simp
        show Parser.terminated written.toList = _
        rw [shape, terminated_eq (by rw [List.getLast?_concat]; decide)]
        simp
      obtain ⟨pos, decoded⟩ := parseExpr_text chars again
      refine ⟨?_, plain, unopened_of_decode decoded⟩
      rintro rfl
      cases pos
  -- a string without placeholders has no nodes below it, so the general result applies
  · intro texts
    refine parseExpr_render parsed (.intro texts fun m hm => ?_) fe uri abspath
    obtain ⟨p, mem, -⟩ := mem_partNodes.1 hm
    exact absurd mem (bare p)

/-- What opens a placeholder, written with an escape, cannot be read from its rendering. -/
example : ((parseExpr ⟨.tree, reservedWords, .none⟩
  (.ofString "\"\\x7e\x7b\"" "" "")).result.toOption.map
    fun e => (parseExpr ⟨.tree, reservedWords, .none⟩
      (.ofString e.render.shown "" "")).result.toOption.isSome) = some false := by
  decide +kernel

/-- A name that is not reserved spells no keyword that is looked for behind an option. -/
theorem startsFree_ident {name : String} (unreserved : name ∉ reservedWords) (r : Range)
    (gap : List Char) (place : Place) :
    StartsFree Expect.afterQuoted ((Expr.ident r name).lexemes gap place) := by
  have keywords : ∀ k ∈ Keyword.all, .keyword k ∈ Expect.afterQuoted →
      String.ofList k.spelling ∈ reservedWords := by decide
  rintro l hl - k looked spells
  cases hl
  change k.spelling = name.toList at spells
  have reserved := keywords k k.mem_all looked
  rw [spells, String.ofList_toList] at reserved
  exact unreserved reserved

/-- The rendering of a string whose placeholders hold names is parsed again, by either front end, to
a string with the same options and names, if its literal texts are not empty and open no
placeholder, the values of its options hold no double mark, no backslash and no line feed, and no
surrogate is in any of these. -/
theorem parseExpr_render_options {fe₀ : FrontEnd} {N : CharacterNames} {source : SourceText}
    {r : Range}
    {parts : List Part}
    (parsed : (parseExpr ⟨fe₀, reservedWords, N⟩ source).result = .ok (.string r parts))
    (texts : ∀ text : Text, .text text ∈ parts → text ≠ [] ∧ text.Plain ∧ Unopened text.chars)
    (names : ∀ p, .placeholder p ∈ parts → ∃ r name, p.expr = .ident r name)
    (values : ∀ p, .placeholder p ∈ parts → ∀ o ∈ p.options, o.2.Plain ∧ ∀ c ∈ o.2.chars,
      c ≠ '"' ∧ c ≠ '\\' ∧ c ≠ '\n') (fe : FrontEnd) (uri abspath : String) :
    ∃ written e', (Expr.string r parts).render = .ofString written ∧
      (parseExpr ⟨fe, reservedWords, N⟩ (.ofString written uri abspath)).result = .ok e' ∧
      (Node.expr e').same (.expr (.string r parts)) = true := by
  refine parseExpr_render parsed (.intro texts fun m hm => ?_) fe uri abspath
  obtain ⟨p, mem, rfl⟩ := mem_partNodes.1 hm
  obtain ⟨r', name, eq⟩ := names p mem
  have below : Node.expr p.expr ∈ (Node.placeholder p).children := List.mem_singleton.2 rfl
  have spoken : p.expr.Spoken ⟨fe₀, reservedWords, N⟩ :=
    (((parseExpr_spoken parsed).child hm).child below).here
  refine .intro ⟨values p mem, fun _ => ?_⟩ ?_
  · rw [eq] at spoken ⊢
    exact startsFree_ident spoken.1.2 r' _ _
  · rintro n hn
    have only : n = .expr (.ident r' name) := by simpa [Node.children, eq] using hn
    rw [only]
    exact .intro trivial (by simp [Node.children, Expr.children])

/-- A line feed that is the value of an option cannot be read from the rendering. -/
example : ((parseExpr ⟨.tree, reservedWords, .none⟩
    (.ofString "\"~\x7bsep='\\n' x\x7d\"" "" "")).result.toOption.map fun e =>
      (parseExpr ⟨.tree, reservedWords, .none⟩
        (.ofString e.render.shown "" "")).result.toOption.isSome) = some false := by
  decide +kernel

end Wdl
