import Wdl.Proofs.Restoration

/-!
# Wdl.Proofs.Vocabulary -- what the tokens of an expression say of its names

The scanner finds a name only where a whole word stands that spells none of the keywords it looks
for, and literal text only where none stands in front. The builder refuses reserved names, and
options that are repeated. So the nodes of an expression that was parsed have names that can be
written where they stand.

* `Token.Looked A t` says this of one token found among the terminals of `A`, and `Led A xs` of a
  list of them, each looked for behind the one before; `Legible.led` gives it to the tokens of every
  text that is scanned.
* `Expr.Spoken rules e` is what a node must say: its names are words and free of the keywords of
  `Expect.expr`, its literal texts are apart, the options of its placeholders are distinct.
* `Parser.Script.spoken` is the step, for one expression and its tokens, and `Parser.Written.spoken`
  goes down through all nodes below. `parseExpr_spoken` is the result for parsed expressions.
-/

namespace Wdl

open Scan
open Wdl.Parser (Step Place Level Script PartPiece Suffix Link Written Spread Opens isLiteral
  openings)

variable {fe : FrontEnd} {rules : Rules} {A : Expect}

/-! ## Tokens behind each other

-/

/-- A token as it is found among the terminals that are looked for: a name is a word that spells
none of the keywords among them, and literal text is one of them. -/
structure Token.Looked (A : Expect) (t : Token) : Prop where
  name : t.kind = .name → IsWord t.chars ∧ IsFree A t.chars
  literal : isLiteral t.kind = true → t.kind ∈ A

/-- A token that is found is one that is looked for. -/
theorem FrontEnd.Reads.looked {gap chars rest : List Char} {kind : Terminal}
    (h : fe.Reads A gap kind chars rest) (start : Nat) : Token.Looked A ⟨kind, chars, start⟩ := by
  refine ⟨fun name => ?_, fun literal => ?_⟩
  · change kind = .name at name
    subst name
    have found := word?_name (word?_of_plain? (h.plain rfl).2.2 (.inl rfl))
    rw [List.take_left] at found
    exact ⟨isWord_of_nameLength? (List.ne_nil_of_length_pos h.pos) found.1, found.2⟩
  · exact List.contains_iff_mem.1 (literal?_eq_some (h.literal literal).2).1

/-- Each token is found among what is looked for behind the one before. -/
def Led : Expect → List Step → Prop
  | _, [] => True
  | A, x :: xs => x.token.Looked A ∧ Led x.after xs

namespace Led

variable {xs ys : List Step}

/-- Steps that come first are led to on their own. -/
theorem front (h : Led A (xs ++ ys)) : Led A xs := by
  induction xs generalizing A with
  | nil => trivial
  | cons x xs ih => exact ⟨h.1, ih h.2⟩

/-- Behind steps is looked for what the last of them says. -/
theorem behind (h : Led A (xs ++ ys)) : Led ((xs.getLast?.map Step.after).getD A) ys := by
  induction xs generalizing A with
  | nil => exact h
  | cons x xs ih =>
    have rest := ih h.2
    rw [List.getLast?_cons]
    cases last : xs.getLast? <;> rw [last] at rest <;> exact rest

end Led

/-- The tokens of a legible text lead to each other. -/
theorem Legible.led {ls : List Lexeme} {rest : List Char} (h : Legible fe A ls rest) (at_ : Nat) :
    Led A (stepsFrom at_ ls) := by
  induction ls generalizing A at_ with
  | nil => trivial
  | cons l ls ih => exact ⟨h.1.looked _, ih h.2 _⟩

/-! ## Parts of strings

The scanner looks for literal text behind a mark and behind a placeholder, never behind literal
text, so two texts of a string are never neighbours. `Apart` states this of the parts as booleans,
because that is all that building keeps of them (`isText_built`). -/

/-- Of the parts of a string, given whether they are literal text, no two such are neighbours. -/
def Apart (texts : List Bool) : Prop := texts.IsChain fun x y => x = false ∨ y = false

/-- A part of a string that is literal text. -/
def Surface.Part.isText : Surface.Part → Bool
  | .text _ _ => true
  | .placeholder _ => false

/-- Behind literal text of a string, no literal text is looked for. -/
theorem Led.apart {q : Quote} {parts : List PartPiece} {ys : List Step}
    (fits : ∀ p ∈ parts, p.Fits (.string q))
    (h : Led A (parts.flatMap (PartPiece.steps (.string q)) ++ ys)) :
    Apart ((parts.map PartPiece.part).map Surface.Part.isText) := by
  induction parts generalizing A with
  | nil => exact .nil
  | cons p parts ih =>
    obtain ⟨here, others⟩ := List.forall_mem_cons.1 fits
    rw [List.flatMap_cons, List.append_assoc] at h
    have rest := h.behind
    refine List.isChain_cons.2 ⟨fun y hy => ?_, ih others rest⟩
    cases p with
    | hole opener close hole => exact .inl rfl
    | text t =>
      cases parts with
      | nil => cases hy
      | cons p parts =>
        cases p with
        | hole opener close hole =>
          cases hy
          exact .inr rfl
        | text u =>
          -- the second text would be found where only a mark or a placeholder is looked for
          have fit : u.kind = .stringText q := others (.text u) (by simp)
          have looked : u.kind ∈ Expect.afterStringText q :=
            rest.1.literal (by rw [fit]; rfl)
          rw [fit] at looked
          cases q <;> simp [Expect.afterStringText] at looked

/-- Literal text that is built was decoded. -/
theorem decodeText_eq_ok {N : CharacterNames} {r : Range} {raw : List Char} {text : Text}
    (h : Build.decodeText N r raw = .ok text) : Escape.decode raw N = some text := by
  unfold Build.decodeText at h
  split at h
  · rename_i decoded
    cases h
    exact decoded
  · exact (Build.violate_ne_ok.1 h).elim

/-- What a part of a string is built to: literal text is decoded. -/
def PartBuilt (rules : Rules) : Surface.Part → Part → Prop
  | .text _ raw, .text text => Escape.decode raw rules.names = some text
  | .placeholder σ, .placeholder p => Build.placeholder rules σ = .ok p
  | _, _ => False

/-- The parts of a string are built one by one. -/
theorem parts_built {σs : List Surface.Part} {raw : List Build.RawPart} {parts : List Part}
    (h : Build.rawParts rules σs = .ok raw)
    (decoded : Build.decodeParts rules.names raw = .ok parts) :
    List.Forall₂ (PartBuilt rules) σs parts := by
  induction σs generalizing raw parts with
  | nil =>
    cases h
    cases decoded
    exact .nil
  | cons σ σs ih =>
    cases σ with
    | text r cs =>
      obtain ⟨raw, rest, rfl⟩ := by simpa [Build.rawParts] using h
      obtain ⟨text, here, parts, more, rfl⟩ := by simpa [Build.decodeParts] using decoded
      exact .cons (decodeText_eq_ok here) (ih rest more)
    | placeholder σ =>
      obtain ⟨p, here, raw, rest, rfl⟩ := by simpa [Build.rawParts] using h
      obtain ⟨parts, more, rfl⟩ := by simpa [Build.decodeParts] using decoded
      exact .cons here (ih rest more)

/-- Building keeps which parts are literal text. -/
theorem isText_built {σs : List Surface.Part} {parts : List Part}
    (h : List.Forall₂ (PartBuilt rules) σs parts) :
    parts.map Part.isText = σs.map Surface.Part.isText := by
  induction h with
  | nil => rfl
  | @cons σ part σs parts first _ ih =>
    have same : part.isText = σ.isText := by
      cases σ <;> cases part <;> first | rfl | exact first.elim
    rw [List.map_cons, List.map_cons, ih, same]

/-- Entries are only collected under distinct keys. -/
theorem nodup_of_distinct {α : Type} {repeated : String → Violation}
    {entries : List (String × α × Range)} {before after : List (String × α)}
    (h : Build.distinct repeated before entries = .ok after) (nodup : (before.map Prod.fst).Nodup) :
    (after.map Prod.fst).Nodup := by
  induction entries generalizing before with
  | nil =>
    cases h
    exact nodup
  | cons entry entries ih =>
    obtain ⟨key, value, r⟩ := entry
    rw [Build.distinct] at h
    split at h
    · exact (Build.violate_ne_ok.1 h).elim
    -- a new key is none of those collected before, so adding it keeps them distinct
    · rename_i new
      refine ih h ?_
      rw [List.map_append, List.nodup_append]
      refine ⟨nodup, by simp, ?_⟩
      rintro x hx y hy rfl
      obtain ⟨old, mem, eq⟩ := List.mem_map.1 hx
      have same : old.1 = key := eq.trans (List.mem_singleton.1 hy)
      exact new (List.any_eq_true.2 ⟨old, mem, by simpa using same⟩)

/-- The options of a placeholder have different names. -/
theorem nodup_options {σ : Surface.Placeholder} {p : Placeholder}
    (h : Build.placeholder rules σ = .ok p) : (p.options.map Prod.fst).Nodup := by
  obtain ⟨r, options, σ⟩ := σ
  obtain ⟨entries, -, e, -, options', distinct, rfl⟩ := by simpa [Build.placeholder] using h
  exact nodup_of_distinct distinct List.nodup_nil

/-! ## What the tokens of an expression say

The constructors without names say nothing. Signs and operators are built by folding, so for them
the root of what is built is found first (`spoken_applySign`, `nestChain_eq_binary`), and only then
what it says. -/

/-- What finding its tokens and building it have made sure of an expression, besides what is below
it. -/
def Expr.Spoken (rules : Rules) : Expr → Prop
  | .ident _ name => IsIdentifier rules name ∧ IsFree Expect.expr name.toList
  | .get _ _ member =>
    IsWord member.toList ∧ (member ∈ Build.pairMembers ∨ member ∉ rules.reserved)
  | .apply _ function _ => IsWord function.toList ∧ IsFree Expect.expr function.toList
  | .struct _ _ typeName =>
    ∀ s ∈ typeName, IsIdentifier rules s ∧ IsFree Expect.expr s.toList ∧ s ≠ Build.objectWord
  | .string _ parts => (parts.IsChain fun p q => p.isText = false ∨ q.isText = false) ∧
      ∀ p, .placeholder p ∈ parts → (p.options.map Prod.fst).Nodup
  | _ => True

/-- The word of a name that is found where expressions start. -/
theorem Token.Looked.word {t : Token} (h : t.Looked A) (sub : Expect.expr ⊆ A)
    (kind : t.kind = .name) : IsWord t.text.toList ∧ IsFree Expect.expr t.text.toList := by
  rw [Token.text, String.toList_ofList]
  obtain ⟨isWord, free⟩ := h.name kind
  exact ⟨isWord, fun k looked => free k (sub looked)⟩

/-- A name that passes the check is not reserved. -/
theorem unreserved_of_checkName {w : Surface.Word} {u : Unit}
    (h : Build.checkName rules w = .ok u) : w.text ∉ rules.reserved := by
  intro mem
  rw [Build.checkName, if_pos (by simpa using mem)] at h
  exact Build.violate_ne_ok.1 h

/-- A struct that is named has a name that is not reserved. -/
theorem structName_eq_some {w : Surface.Word} {typeName : Option String}
    (h : Build.structName rules w = .ok typeName) {s : String} (mem : s ∈ typeName) :
    s = w.text ∧ w.text ∉ rules.reserved ∧ w.text ≠ Build.objectWord := by
  rw [Build.structName] at h
  split at h
  · cases h
    cases mem
  · rename_i other
    obtain ⟨u, allowed, eq⟩ := Build.bind_eq_ok.1 h
    cases eq
    cases mem
    exact ⟨rfl, unreserved_of_checkName allowed, other⟩

/-- Where an expression stands does not matter. -/
theorem spoken_withRange (r : Range) {e : Expr} (h : e.Spoken rules) :
    (e.withRange r).Spoken rules := by
  cases e <;> exact h

/-- A sign is no name, and neither is a number it is folded into. -/
theorem spoken_applySign (r : Range) (op : UnaryOp) (e : Expr) :
    (Build.applySign r op e).Spoken rules := by
  unfold Build.applySign
  split <;> trivial

/-- With operators, an operator combines all there is. -/
theorem fold_eq_combine {α : Type} {t : Grouping.Tree α} (ne : t.rest ≠ [])
    (combine : BinaryOp → α → α → α) : ∃ op x y, t.fold combine = combine op x y := by
  cases t with
  | leaf x => exact absurd rfl ne
  | node op l r => exact ⟨op, _, _, rfl⟩

/-- What is built from a chain is an operator applied to what is on either side. -/
theorem nestChain_eq_binary (fe : FrontEnd) (first : Build.Placed)
    {rest : List (BinaryOp × Build.Placed)} (ne : rest ≠ []) :
    ∃ r op left right, Build.nestChain fe first rest = .binary r op left right := by
  cases fe with
  | tree =>
    have operators : (Grouping.treeOf first rest).rest ≠ [] := by simpa using ne
    obtain ⟨op, x, y, eq⟩ := fold_eq_combine operators Build.combinePlaced
    rw [Build.nestChain, Grouping.layered_eq_fold, eq]
    exact ⟨_, _, _, _, rfl⟩
  | flat =>
    have operators : (Grouping.treeOf first.2
        (rest.map fun link => (link.1, link.2.2))).rest ≠ [] := by simpa using ne
    obtain ⟨op, x, y, eq⟩ := fold_eq_combine operators Build.combineBuilt
    rw [Build.nestChain, Grouping.climb_eq_fold, eq]
    exact ⟨_, _, _, _, rfl⟩

/-- The links of a chain are built to as many. -/
theorem operands_ne_nil {links : List Link} (ne : links ≠ [])
    {placed : List (BinaryOp × Build.Placed)}
    (built : Build.operands rules (links.map Link.link) = .ok placed) : placed ≠ [] := by
  obtain ⟨l, links, rfl⟩ := List.exists_cons_of_ne_nil ne
  rintro rfl
  simp [Link.link, Build.operands] at built

/-- A member that is accessed is a word, and reserved for nothing else. -/
def Build.Access.Spoken (rules : Rules) : Build.Access → Prop
  | .index _ _ => True
  | .member _ name => IsWord name.toList ∧ (name ∈ Build.pairMembers ∨ name ∉ rules.reserved)

/-- The accesses behind an operand are found by their tokens, so their members are words that are
allowed. -/
theorem spoken_accesses {suffixes : List Suffix} {as : List Build.Access} {ys : List Step}
    (fits : ∀ a ∈ suffixes, a.Fits) (led : Led A (suffixes.flatMap Suffix.steps ++ ys))
    (built : Build.accesses rules (suffixes.map Suffix.accessor) = .ok as) :
    ∀ a ∈ as, a.Spoken rules := by
  induction suffixes generalizing A as with
  | nil =>
    cases built
    simp
  | cons suffix suffixes ih =>
    obtain ⟨fit, others⟩ := List.forall_mem_cons.1 fits
    rw [List.flatMap_cons, List.append_assoc] at led
    have behind := led.behind
    cases suffix with
    | index bracket close inner =>
      obtain ⟨i, -, rest, hrest, rfl⟩ := by
        simpa [Suffix.accessor, Build.accesses] using built
      exact List.forall_mem_cons.2 ⟨trivial, ih others behind hrest⟩
    | member dot name =>
      obtain ⟨⟨u, allowed⟩, rest, hrest, rfl⟩ := by
        simpa [Suffix.accessor, Build.accesses] using built
      refine List.forall_mem_cons.2 ⟨⟨?_, ?_⟩, ih others behind hrest⟩
      · have isWord := (led.2.1.name fit.2).1
        show IsWord (Token.text name).toList
        rwa [Token.text, String.toList_ofList]
      -- `left` and `right` are allowed although they may be reserved
      · rw [Build.checkMember] at allowed
        split at allowed
        · rename_i pair
          exact .inl (by simpa using pair)
        · exact .inr (unreserved_of_checkName allowed)

/-- An expression with accesses says what they do, if it says what it has to itself. -/
theorem spoken_applyAccesses (fe : FrontEnd) (start : Nat) {as : List Build.Access} {e : Expr}
    (h : e.Spoken rules) (each : ∀ a ∈ as, a.Spoken rules) :
    (Build.applyAccesses fe start e as).Spoken rules := by
  have one : ∀ {a : Build.Access} (r : Range) (e : Expr), a.Spoken rules →
      (a.apply r e).Spoken rules := by
    intro a r e ha
    cases a with
    | index r' i => trivial
    | member r' name => exact ha
  induction as generalizing e with
  | nil => cases fe <;> exact h
  | cons a as ih =>
    obtain ⟨here, others⟩ := List.forall_mem_cons.1 each
    cases fe <;> exact ih (one _ e here) others

/-- The tokens of an expression, found where expressions start, say what they have to. -/
theorem Parser.Script.spoken {level : Level} {place : Place} {σ : Surface.Expr} {xs : List Step}
    (h : Script level place σ xs) {e : Expr} (led : Led A xs) (sub : Expect.expr ⊆ A)
    (built : Build.expr rules σ = .ok e) : e.Spoken rules := by
  -- what a node says of words comes from its own tokens: each word was found as one, among what
  -- is looked for where an expression starts
  induction h generalizing A e with
  | boolean t value kind =>
    cases built
    trivial
  | null t kind =>
    cases built
    trivial
  | number k t kind =>
    obtain ⟨value, -, rfl⟩ := by simpa [Build.expr] using built
    cases value <;> trivial
  | name t kind =>
    obtain ⟨⟨u, allowed⟩, rfl⟩ := by simpa [Build.expr] using built
    obtain ⟨isWord, free⟩ := led.1.word sub kind
    exact ⟨⟨isWord, unreserved_of_checkName allowed⟩, free⟩
  | string q start close parts opened closed fits _ _ =>
    obtain ⟨raw, hraw, decoded, hdecoded, rfl⟩ := by simpa [Build.expr] using built
    have built := parts_built hraw hdecoded
    refine ⟨?_, fun p mem => ?_⟩
    · have apart := led.2.apart fits
      rw [← isText_built built] at apart
      exact (List.isChain_map Part.isText).1 apart
    · refine forall_of_forall₂ (P := fun part => ∀ p, part = .placeholder p →
        (p.options.map Prod.fst).Nodup) built ?_ _ mem p rfl
      rintro σ - _ here p rfl
      cases σ with
      | text r raw => exact here.elim
      | placeholder σ => exact nodup_options here
  | array bracket close items opened closed _ separated _ =>
    obtain ⟨es, -, rfl⟩ := by simpa [Build.expr] using built
    trivial
  | group paren close opened closed _ ih =>
    obtain ⟨inner, hinner, rfl⟩ := by simpa [Build.expr] using built
    exact spoken_withRange _ (ih led.2.front (List.Subset.refl _) hinner)
  | pair paren comma close opened between closed _ _ _ _ =>
    obtain ⟨a, -, b, -, rfl⟩ := by simpa [Build.expr] using built
    trivial
  | map brace close items opened closed colons _ _ separated _ _ =>
    obtain ⟨es, -, rfl⟩ := by simpa [Build.expr] using built
    trivial
  | choice kwIf kwThen kwElse hif hthen helse _ _ _ _ _ _ =>
    obtain ⟨a, -, b, -, c, -, rfl⟩ := by simpa [Build.expr] using built
    trivial
  | apply name paren close arguments named opened closed _ separated _ =>
    obtain ⟨es, -, rfl⟩ := by simpa [Build.expr] using built
    exact led.1.word sub named
  | struct name brace close ms named opened closed fits _ separated _ =>
    obtain ⟨es, -, typeName, struct, rfl⟩ := by simpa [Build.expr] using built
    rintro s mem
    obtain ⟨rfl, unreserved, other⟩ := structName_eq_some struct mem
    obtain ⟨isWord, free⟩ := led.1.word sub named
    exact ⟨⟨isWord, unreserved⟩, free, other⟩
  | bare _ ih => exact ih led sub built
  | accessed suffixes ne _ inner fits _ ih _ =>
    obtain ⟨b, hb, as, has, rfl⟩ := by simpa [Build.expr] using built
    have accesses := led.behind
    rw [← List.append_nil (suffixes.flatMap _)] at accesses
    exact spoken_applyAccesses _ _ (ih led.front sub hb) (spoken_accesses fits accesses has)
  | unsigned _ ih => exact ih led sub built
  | signed signs ne ops _ _ =>
    obtain ⟨b, -, rfl⟩ := by simpa [Build.expr] using built
    rw [Parser.applySigns_eq]
    obtain ⟨x, signs, rfl⟩ := List.exists_cons_of_ne_nil ne
    exact spoken_applySign _ _ _
  | single _ ih => exact ih led sub built
  | chain links ne inner ops _ _ ih _ =>
    obtain ⟨b, -, placed, hplaced, rfl⟩ := by simpa [Build.expr] using built
    obtain ⟨r, op, left, right, eq⟩ := nestChain_eq_binary rules.frontEnd (_, b)
      (operands_ne_nil ne hplaced)
    rw [eq]
    trivial

/-- Behind what opens an expression, what an expression starts with is looked for. -/
theorem Parser.Opens.started {first : Bool} {gap : List Step} (h : Opens first gap)
    (sub : first = true → Expect.expr ⊆ A) :
    Expect.expr ⊆ (gap.getLast?.map Step.after).getD A := by
  have each : ∀ A ∈ openings, Expect.expr ⊆ A := by decide
  unfold Opens at h
  cases last : gap.getLast? with
  | none =>
    rw [last] at h
    exact sub h
  | some x =>
    rw [last] at h
    exact each _ h

/-- What `Expr.Spoken` says, of a node that is an expression. -/
def Node.Spoken (rules : Rules) : Node → Prop
  | .expr e => e.Spoken rules
  | _ => True

mutual

/-- What is written by tokens that are found says what it has to, all that is below it included. -/
theorem Parser.Written.spoken : {A : Expect} → {n : Node} → {xs : List Step} →
    Written rules n xs → Expect.expr ⊆ A → Led A xs → n.Everywhere (Node.Spoken rules)
  | _, _, _, .expr script built spread, sub, led =>
    .intro (script.spoken led sub built) (Spread.spoken spread (fun _ => sub) led)
  | _, _, _, .placeholder _ _ spread, sub, led =>
    .intro trivial (Spread.spoken spread (fun _ => sub) led)

/-- Nodes that are written behind each other say what they have to. -/
theorem Parser.Spread.spoken : {A : Expect} → {first : Bool} → {ns : List Node} →
    {xs : List Step} → Spread rules first ns xs → (first = true → Expect.expr ⊆ A) → Led A xs →
      ∀ n ∈ ns, n.Everywhere (Node.Spoken rules)
  | _, _, _, _, .nil _, _, _ => by simp
  | _, _, _, _, .cons opens written spread, sub, led => by
    have here := led.behind
    have started := opens.started sub
    refine List.forall_mem_cons.2 ⟨Written.spoken written started here.front, ?_⟩
    exact Spread.spoken spread (by simp) here.behind

end

/-- Every node of an expression that was parsed says what its tokens say. -/
theorem parseExpr_spoken {source : SourceText} {e : Expr}
    (parsed : (parseExpr rules source).result = .ok e) :
    (Node.expr e).Everywhere (Node.Spoken rules) := by
  obtain ⟨σ, ls, rest, legible, -, script, built, -⟩ := parseExpr_legible parsed
  exact (script.written built).spoken (List.Subset.refl _) (legible.led _)

end Wdl
