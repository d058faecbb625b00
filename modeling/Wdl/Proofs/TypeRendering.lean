import Wdl.Proofs.Guarantees
import Wdl.Proofs.Spans
import Wdl.Proofs.TypeTexts

/-!
# Wdl.Proofs.TypeRendering -- types are parsed from their renderings

The tokens of a rendered type follow its constructors: a name, its parameters in brackets, and one
mark for the array that must not be empty and the value that may be absent. So the rendering of a
type declares just that type, different types have different renderings, and every type of a parsed
document is one that can be written so.

* `Ty.Writable` are the types that can be written: the names of structs are words and no names of
  `builtinTypes`, and nothing is optional twice. It is decidable.
* `Ty.lexemes` are the lexemes of a rendering. Its second argument asks for the mark of the optional
  type around, since `+?` is one token. `Ty.spelled_lexemes` and `Ty.proper_lexemes` say that they
  are the rendering and can be scanned.
* `WritesType` says that lexemes write a type with a given view. `writes_name`, `writes_one` and
  `writes_two` are the three productions of types, and `Ty.lexemes_write` has one case for each
  constructor.
* `Parser.TypeOrigin.writable` is the converse: what is built of words is writable.
* `Ty.render_declares` is the result.
-/

namespace Wdl

open Scan
open Wdl.Parser (Mark TypeSteps)

/-! ## Types that can be written -/

/-- The names of the types that are built in. -/
def builtinTypes : List String :=
  [Build.arrayWord, Build.mapWord, Build.pairWord] ++ Atom.all.map Atom.name

/-- The names of structs in the type are words, and those of no other type; and no type in it is
marked optional twice. -/
def Ty.Writable : Ty → Prop
  | .atom _ _ => True
  | .struct _ name => IsWord name.toList ∧ name ∉ builtinTypes
  | .optional _ inner => inner.isOptional = false ∧ inner.Writable
  | .array _ item _ => item.Writable
  | .map _ key value => key.Writable ∧ value.Writable
  | .pair _ left right => left.Writable ∧ right.Writable

/-- Whether a type can be written is checked along its constructors. -/
instance Ty.decidableWritable : (T : Ty) → Decidable T.Writable
  | .atom _ _ => inferInstanceAs (Decidable True)
  | .struct _ name => inferInstanceAs (Decidable (IsWord name.toList ∧ name ∉ builtinTypes))
  | .optional _ inner =>
    have := inner.decidableWritable
    inferInstanceAs (Decidable (inner.isOptional = false ∧ inner.Writable))
  | .array _ item _ => item.decidableWritable
  | .map _ key value =>
    have := key.decidableWritable
    have := value.decidableWritable
    inferInstanceAs (Decidable (key.Writable ∧ value.Writable))
  | .pair _ left right =>
    have := left.decidableWritable
    have := right.decidableWritable
    inferInstanceAs (Decidable (left.Writable ∧ right.Writable))

/-! ## Lexemes of types -/

/-- The quantifier of a type that is marked nonempty, optional or both. -/
def quantifierOf : Bool → Bool → Option Surface.Quantifier
  | false, false => none
  | true, false => some .nonempty
  | false, true => some .optional
  | true, true => some .optionalNonempty

/-- The lexeme of the mark of a type. -/
def markLexemes (nonempty opt : Bool) : List Lexeme :=
  (quantifierOf nonempty opt).toList.map fun q => .symbol [] q.symbol Expect.afterType

/-- The lexemes of a name with parameters and a mark. -/
def parameterized (name : String) (parameters : List Lexeme) (nonempty opt : Bool) : List Lexeme :=
  .name [] name Expect.afterTypeName :: .symbol [] .bracketOpen Expect.aName ::
    (parameters ++ .symbol [] .bracketClose Expect.quantifiers :: markLexemes nonempty opt)

/-- The lexemes of a type, marked optional if asked to. -/
def Ty.lexemes : Ty → Bool → List Lexeme
  | .atom _ kind, opt => .name [] kind.name Expect.afterTypeName :: markLexemes false opt
  | .struct _ name, opt => .name [] name Expect.afterTypeName :: markLexemes false opt
  | .optional _ inner, _ => inner.lexemes true
  | .array _ item nonempty, opt =>
    parameterized Build.arrayWord (item.lexemes false) nonempty opt
  | .map _ key value, opt =>
    parameterized Build.mapWord
      (key.lexemes false ++ .symbol [] .comma Expect.aName :: value.lexemes false) false opt
  | .pair _ left right, opt =>
    parameterized Build.pairWord
      (left.lexemes false ++ .symbol [] .comma Expect.aName :: right.lexemes false) false opt

/-- A mark is spelled as it is rendered. -/
theorem spelled_markLexemes (nonempty opt : Bool) :
    spelled (markLexemes nonempty opt) =
      (if nonempty then "+" else "").toList ++ (if opt then "?" else "").toList := by
  cases nonempty <;> cases opt <;> rfl

theorem spelled_parameterized (name : String) (parameters : List Lexeme) (nonempty opt : Bool) :
    spelled (parameterized name parameters nonempty opt) =
      (name ++ "[").toList ++ spelled parameters ++ ("]" ++ if nonempty then "+" else "").toList ++
        (if opt then "?" else "").toList := by
  simp [parameterized, Lexeme.name, Lexeme.symbol, Symbol.spelling, spelled_markLexemes]

/-- Spelled out, the lexemes of a type are its rendering. -/
theorem Ty.spelled_lexemes (T : Ty) (writable : T.Writable) (opt : Bool)
    (once : opt = true → T.isOptional = false) :
    spelled (T.lexemes opt) = (T.render ++ if opt then "?" else "").toList := by
  induction T generalizing opt with
  | atom r kind => simp [lexemes, render, Lexeme.name, spelled_markLexemes]
  | struct r name => simp [lexemes, render, Lexeme.name, spelled_markLexemes]
  | optional r inner ih =>
    cases opt with
    | true => cases once rfl
    | false => simpa [lexemes, render] using ih writable.2 true fun _ => writable.1
  | array r item nonempty ih =>
    have item := ih writable false (by simp)
    simp [lexemes, render, spelled_parameterized, Build.arrayWord, item]
  | map r key value ih ih' =>
    have key := ih writable.1 false (by simp)
    have value := ih' writable.2 false (by simp)
    simp [lexemes, render, spelled_parameterized, Build.mapWord, Lexeme.symbol, Symbol.spelling,
      key, value]
  | pair r left right ih ih' =>
    have left := ih writable.1 false (by simp)
    have right := ih' writable.2 false (by simp)
    simp [lexemes, render, spelled_parameterized, Build.pairWord, Lexeme.symbol, Symbol.spelling,
      left, right]

/-! ## The lexemes are proper

That a lexeme is proper has to be shown of names only, which must be words. Symbols are what they
are. -/

theorem Lexeme.Proper.of_symbol (s : Symbol) (after : Expect) : (Lexeme.symbol [] s after).Proper :=
  ⟨.nil false, nofun, by rintro _ ⟨⟩; rfl⟩

theorem Lexeme.Proper.of_name {name : String} (word : IsWord name.toList) (after : Expect) :
    (Lexeme.name [] name after).Proper :=
  ⟨.nil false, fun _ => word, nofun⟩

theorem proper_markLexemes (nonempty opt : Bool) : ∀ l ∈ markLexemes nonempty opt, l.Proper := by
  intro l hl
  obtain ⟨q, -, rfl⟩ := List.mem_map.1 hl
  exact .of_symbol _ _

theorem proper_parameterized {name : String} {parameters : List Lexeme} (nonempty opt : Bool)
    (word : IsWord name.toList) (proper : ∀ l ∈ parameters, l.Proper) :
    ∀ l ∈ parameterized name parameters nonempty opt, l.Proper := by
  intro l hl
  simp only [parameterized, List.mem_cons, List.mem_append] at hl
  rcases hl with rfl | rfl | hl | rfl | hl
  · exact .of_name word _
  · exact .of_symbol _ _
  · exact proper l hl
  · exact .of_symbol _ _
  · exact proper_markLexemes _ _ l hl

theorem proper_comma {ls ms : List Lexeme} (hl : ∀ l ∈ ls, l.Proper) (hm : ∀ l ∈ ms, l.Proper) :
    ∀ l ∈ ls ++ .symbol [] .comma Expect.aName :: ms, l.Proper := by
  intro l h
  rcases List.mem_append.1 h with h | h
  · exact hl l h
  · rcases List.mem_cons.1 h with rfl | h
    · exact .of_symbol _ _
    · exact hm l h

theorem Ty.proper_lexemes (T : Ty) (writable : T.Writable) (opt : Bool) :
    ∀ l ∈ T.lexemes opt, l.Proper := by
  induction T generalizing opt with
  | atom r kind =>
    refine List.forall_mem_cons.2 ⟨.of_name ?_ _, proper_markLexemes _ _⟩
    cases kind <;> decide
  | struct r name =>
    exact List.forall_mem_cons.2 ⟨.of_name writable.1 _, proper_markLexemes _ _⟩
  | optional r inner ih => exact ih writable.2 true
  | array r item nonempty ih => exact proper_parameterized _ _ (by decide) (ih writable false)
  | map r key value ih ih' =>
    exact proper_parameterized _ _ (by decide)
      (proper_comma (ih writable.1 false) (ih' writable.2 false))
  | pair r left right ih ih' =>
    exact proper_parameterized _ _ (by decide)
      (proper_comma (ih writable.1 false) (ih' writable.2 false))

/-! ## The lexemes write the type

A type is built from its name and its parameters, and then from its mark. So there is a lemma about
marks, `quantifiedType_view`, and one for each number of parameters. -/

/-- The steps of a mark, wherever it stands. -/
theorem exists_mark (nonempty opt : Bool) (at_ : Nat) :
    ∃ m : Mark, m.steps = stepsFrom at_ (markLexemes nonempty opt) ∧ m.Fits ∧
      m.map Prod.fst = quantifierOf nonempty opt := by
  rw [markLexemes]
  cases quantifierOf nonempty opt with
  | none => exact ⟨none, rfl, by simp [Mark.Fits], rfl⟩
  | some q =>
    refine ⟨some (q, ((Lexeme.symbol [] q.symbol Expect.afterType).step at_).token), rfl, ?_, rfl⟩
    rintro _ ⟨⟩
    rfl

/-- The view of a type that is marked optional if asked to. -/
def optionalView (opt : Bool) (V : View) : View :=
  if opt then .node ⟨"Type", "Optional"⟩ [("wrapped_type", V)] else V

/-- A type with a mark is built if the type without it is, whatever its range. -/
theorem quantifiedType_view {whole : Range} {name : String} {ps : List Ty} {nonempty opt : Bool}
    {V : View} {m : Mark} (mark : m.map Prod.fst = quantifierOf nonempty opt)
    (plain : ∀ inner, ∃ T, Build.plainType whole inner name ps nonempty = .ok T ∧ T.view = V) :
    ∃ T, Build.quantifiedType whole name ps m.quantifier = .ok T ∧ T.view = optionalView opt V := by
  cases m with
  | none =>
    cases nonempty <;> cases opt <;> cases mark
    exact plain whole
  | some p =>
    obtain ⟨q, token⟩ := p
    obtain ⟨T, built, view⟩ := plain ⟨whole.start, token.start⟩
    have flags : Build.isNonempty q = nonempty ∧ Build.isOptional q = opt := by
      cases nonempty <;> cases opt <;> cases mark <;> exact ⟨rfl, rfl⟩
    simp only [Mark.quantifier, Option.map_some, Build.quantifiedType, flags, built]
    cases opt with
    | false => exact ⟨T, rfl, view⟩
    | true => exact ⟨.optional whole T, rfl, by rw [Ty.view, view]; rfl⟩

/-- Wherever the lexemes stand, they write a type with the view. -/
def WritesType (ls : List Lexeme) (V : View) : Prop :=
  ∀ at_, ∃ t, TypeSteps t (stepsFrom at_ ls) ∧ ∃ T, Build.type t = .ok T ∧ T.view = V

theorem Build.type_eq_ok {whole : Range} {name : Surface.Word} {ts : List Surface.TypeExpr}
    {q : Option (Surface.Quantifier × Nat)} {T : Ty} :
    type (.mk whole name ts q) = .ok T ↔
      ∃ Ts, types ts = .ok Ts ∧ quantifiedType whole name.text Ts q = .ok T := by
  rw [type]
  exact bind_eq_ok

/-- A name without parameters writes what is built of it. -/
theorem writes_name {name : String} {V : View}
    (plain : ∀ whole inner, ∃ T, Build.plainType whole inner name [] false = .ok T ∧ T.view = V)
    (opt : Bool) :
    WritesType (.name [] name Expect.afterTypeName :: markLexemes false opt)
      (optionalView opt V) := by
  intro at_
  rw [stepsFrom]
  obtain ⟨m, steps, fits, mark⟩ := exists_mark false opt
    (at_ + (Lexeme.name [] name Expect.afterTypeName).text.length)
  rw [← steps]
  obtain ⟨T, built, view⟩ := quantifiedType_view mark (plain _)
  refine ⟨_, .name ((Lexeme.name [] name Expect.afterTypeName).step at_).token m rfl fits, T,
    Build.type_eq_ok.2 ⟨[], rfl, ?_⟩, view⟩
  rw [Parser.word, Token.text, Lexeme.step, Lexeme.name, String.ofList_toList]
  exact built

/-- A name with one parameter writes what is built of it and of what the parameter writes. -/
theorem writes_one {name : String} {nonempty : Bool} {ls : List Lexeme} {V W : View}
    (inner : WritesType ls V)
    (plain : ∀ T, T.view = V → ∀ whole inner, ∃ U,
      Build.plainType whole inner name [T] nonempty = .ok U ∧ U.view = W) (opt : Bool) :
    WritesType (parameterized name ls nonempty opt) (optionalView opt W) := by
  intro at_
  rw [parameterized, stepsFrom, stepsFrom, stepsFrom_append, stepsFrom]
  generalize at_ + _ = a
  generalize a + _ = b
  generalize b + _ = c
  obtain ⟨p, first, T, hT, viewT⟩ := inner b
  obtain ⟨m, steps, fits, mark⟩ := exists_mark nonempty opt
    (c + (Lexeme.symbol [] .bracketClose Expect.quantifiers).text.length)
  rw [← steps]
  obtain ⟨U, built, view⟩ := quantifiedType_view mark (plain T viewT _)
  refine ⟨_, .one ((Lexeme.name [] name Expect.afterTypeName).step at_).token
    ((Lexeme.symbol [] .bracketOpen Expect.aName).step a).token
    ((Lexeme.symbol [] .bracketClose Expect.quantifiers).step c).token m rfl rfl rfl fits first, U,
    Build.type_eq_ok.2 ⟨[T], by simp [Build.types, hT], ?_⟩, view⟩
  rw [Parser.word, Token.text, Lexeme.step, Lexeme.name, String.ofList_toList]
  exact built

/-- A name with two parameters writes what is built of it and of what they write. -/
theorem writes_two {name : String} {ls ms : List Lexeme} {V W X : View} (left : WritesType ls V)
    (right : WritesType ms W)
    (plain : ∀ T U, T.view = V → U.view = W → ∀ whole inner, ∃ P,
      Build.plainType whole inner name [T, U] false = .ok P ∧ P.view = X) (opt : Bool) :
    WritesType (parameterized name (ls ++ .symbol [] .comma Expect.aName :: ms) false opt)
      (optionalView opt X) := by
  intro at_
  rw [parameterized, stepsFrom, stepsFrom, stepsFrom_append, stepsFrom, stepsFrom_append, stepsFrom]
  generalize at_ + _ = a
  generalize a + _ = b
  generalize b + (spelled ls).length = c
  generalize c + _ = d
  generalize b + _ = e
  obtain ⟨p, first, T, hT, viewT⟩ := left b
  obtain ⟨q, second, U, hU, viewU⟩ := right d
  obtain ⟨m, steps, fits, mark⟩ := exists_mark false opt
    (e + (Lexeme.symbol [] .bracketClose Expect.quantifiers).text.length)
  rw [← steps, List.append_assoc]
  obtain ⟨P, built, view⟩ := quantifiedType_view mark (plain T U viewT viewU _)
  refine ⟨_, .two ((Lexeme.name [] name Expect.afterTypeName).step at_).token
    ((Lexeme.symbol [] .bracketOpen Expect.aName).step a).token
    ((Lexeme.symbol [] .comma Expect.aName).step c).token
    ((Lexeme.symbol [] .bracketClose Expect.quantifiers).step e).token m rfl rfl rfl rfl fits first
    second, P, Build.type_eq_ok.2 ⟨[T, U], by simp [Build.types, hT, hU], ?_⟩, view⟩
  rw [Parser.word, Token.text, Lexeme.step, Lexeme.name, String.ofList_toList]
  exact built

/-- A name of no parameterized type is that of an atom or a struct. -/
theorem plainType_name {name : String} (other : name ∉ [Build.arrayWord, Build.mapWord,
    Build.pairWord]) (whole inner : Range) :
    Build.plainType whole inner name [] false = .ok (match Atom.ofName? name with
      | some kind => .atom inner kind
      | none => .struct inner name) := by
  simp only [List.mem_cons, List.not_mem_nil, or_false, not_or] at other
  simp only [Build.plainType, if_neg other.1, if_neg other.2.1, if_neg other.2.2, List.isEmpty_nil,
    Bool.not_true, Bool.false_eq_true, if_false]
  cases Atom.ofName? name <;> rfl

/-- The lexemes of a type write it. -/
theorem Ty.lexemes_write (T : Ty) (writable : T.Writable) (opt : Bool)
    (once : opt = true → T.isOptional = false) :
    WritesType (T.lexemes opt) (optionalView opt T.view) := by
  induction T generalizing opt with
  | atom r kind =>
    refine writes_name (fun whole inner => ⟨_, plainType_name ?_ whole inner, ?_⟩) opt
    · cases kind <;> decide
    · rw [Atom.ofName?_name]
      rfl
  | struct r name =>
    obtain ⟨-, other⟩ := writable
    simp only [builtinTypes, List.mem_append, not_or] at other
    refine writes_name (fun whole inner => ⟨_, plainType_name other.1 whole inner, ?_⟩) opt
    -- a struct has the name of no other type, so its name is not taken for one
    have unknown : Atom.ofName? name = none := by
      refine List.find?_eq_none.2 fun kind mem same => other.2 (List.mem_map.2 ⟨kind, mem, ?_⟩)
      simpa using same
    rw [unknown]
    rfl
  | optional r inner ih =>
    cases opt with
    -- the mark of the type around is already there, and nothing is optional twice
    | true => cases once rfl
    | false => exact ih writable.2 true fun _ => writable.1
  | array r item nonempty ih =>
    refine writes_one (ih writable false (by simp)) (fun T same whole inner => ⟨_, rfl, ?_⟩) opt
    rw [view, same]
    rfl
  | map r key value ih ih' =>
    refine writes_two (ih writable.1 false (by simp)) (ih' writable.2 false (by simp))
      (fun T U same same' whole inner => ⟨_, rfl, ?_⟩) opt
    rw [view, same, same']
    rfl
  | pair r left right ih ih' =>
    refine writes_two (ih writable.1 false (by simp)) (ih' writable.2 false (by simp))
      (fun T U same same' whole inner => ⟨_, rfl, ?_⟩) opt
    rw [view, same, same']
    rfl

/-! ## Types of parsed documents

Types come from the tokens of the document, where each name is a word. That a struct has no name of
another type, and that nothing is optional twice, is due to the builder, which looks at these names
first and has one mark at a time. -/

/-- A type without its mark is writable if its name is a word and its parameters are writable. -/
theorem writable_of_plain {whole inner : Range} {name : String} {ps : List Ty} {nonempty : Bool}
    {T : Ty} (word : IsWord name.toList) (below : ∀ P ∈ ps, P.Writable)
    (built : Build.plainType whole inner name ps nonempty = .ok T) : T.Writable := by
  unfold Build.plainType at built
  split at built
  · split at built
    · rename_i item
      cases built
      exact below item (by simp)
    · cases built
  rename_i array
  split at built
  · cases built
  split at built
  · split at built
    · cases built
      exact ⟨below _ (by simp), below _ (by simp)⟩
    · cases built
  rename_i map
  split at built
  · split at built
    · cases built
      exact ⟨below _ (by simp), below _ (by simp)⟩
    · cases built
  rename_i pair
  split at built
  · cases built
  split at built
  · cases built
    trivial
  · rename_i unknown
    cases built
    refine ⟨word, ?_⟩
    simp only [builtinTypes, List.mem_append, List.mem_cons, List.not_mem_nil, or_false, array, map,
      pair, false_or, List.mem_map, not_exists, not_and]
    intro kind mem same
    exact absurd same (by simpa using List.find?_eq_none.1 unknown kind mem)

/-- A type is writable if its name is a word and its parameters are writable. -/
theorem writable_of_quantified {whole : Range} {name : String} {ps : List Ty}
    {q : Option (Surface.Quantifier × Nat)} {T : Ty} (word : IsWord name.toList)
    (below : ∀ P ∈ ps, P.Writable) (built : Build.quantifiedType whole name ps q = .ok T) :
    T.Writable := by
  cases q with
  | none => exact writable_of_plain word below built
  | some q =>
    obtain ⟨plain, hplain, built⟩ := Build.bind_eq_ok.1 built
    have inner := writable_of_plain word below hplain
    split at built <;> cases built
    · exact ⟨Build.plainType_isOptional hplain, inner⟩
    · exact inner

/-- What is built of words is writable. -/
theorem Parser.TypeSteps.writable {t : Surface.TypeExpr} {xs : List Step} (h : TypeSteps t xs)
    (words : ∀ x ∈ xs, x.token.kind = .name → IsWord x.token.chars) {T : Ty}
    (built : Build.type t = .ok T) : T.Writable := by
  have text : ∀ t : Token, (word t).text.toList = t.chars := fun t => String.toList_ofList
  induction h generalizing T with
  | name t m kind fits =>
    obtain ⟨_, ⟨⟩, built⟩ := Build.type_eq_ok.1 built
    exact writable_of_quantified (text t ▸ words _ List.mem_cons_self kind) (by simp) built
  | one t bracket close m kind opened closed fits _ ih =>
    obtain ⟨Ts, parameters, built⟩ := Build.type_eq_ok.1 built
    obtain ⟨P, hP, rfl⟩ := by simpa [Build.types] using parameters
    refine writable_of_quantified (text t ▸ words _ List.mem_cons_self kind) ?_ built
    rintro _ (_ | ⟨_, ⟨⟩⟩)
    exact ih (fun x hx => words x (by simp [hx])) hP
  | two t bracket comma close m kind opened between closed fits _ _ ih ih' =>
    obtain ⟨Ts, parameters, built⟩ := Build.type_eq_ok.1 built
    obtain ⟨P, hP, Q, hQ, rfl⟩ := by simpa [Build.types] using parameters
    refine writable_of_quantified (text t ▸ words _ List.mem_cons_self kind) ?_ built
    rintro _ (_ | ⟨_, _ | ⟨_, ⟨⟩⟩⟩)
    · exact ih (fun x hx => words x (by simp [hx])) hP
    · exact ih' (fun x hx => words x (by simp [hx])) hQ

/-- Names that are legible are words. -/
theorem Legible.words {fe : FrontEnd} {A : Expect} {ls : List Lexeme} {rest : List Char}
    (h : Legible fe A ls rest) {at_ : Nat} :
    ∀ x ∈ stepsFrom at_ ls, x.token.kind = .name → IsWord x.token.chars := by
  induction ls generalizing A at_ with
  | nil => simp [stepsFrom]
  | cons l ls ih =>
    refine List.forall_mem_cons.2 ⟨fun kind => ?_, ih h.2⟩
    have name : l.kind = .name := kind
    exact (h.1.proper (by rw [name]; rfl)).name name

/-- The names that a run takes are words. -/
theorem Parser.Run.words {fe : FrontEnd} {cs : List Char} {s s' : State} {xs : List Step}
    (sound : s.Sound fe cs) (run : Run fe.next s xs s') :
    ∀ x ∈ xs, x.token.kind = .name → IsWord x.token.chars := by
  obtain ⟨A, c, -, found⟩ := sound.found
  obtain ⟨ls, rest, legible, rfl, -⟩ := run.legible found
  exact legible.words

/-- A type of a text is writable. -/
theorem Parser.TypeOrigin.writable {fe : FrontEnd} {cs : List Char} {T : Ty}
    (h : TypeOrigin fe cs T) : T.Writable := by
  cases h with
  | whole sound run steps built => exact steps.writable (run.words sound) built
  | inner sound run steps built => exact (steps.writable (run.words sound) built).2

/-! ## Rendering and parsing

A type is put into the frame of a struct with one member. What the frame parses to is unique, which
gives that different types have different renderings. -/

/-- A text declares the member of a struct to be of one type at most. -/
theorem StructFrame.Declares.unique {rules : Rules} {f : StructFrame} {written : String} {T U : Ty}
    (hT : f.Declares rules written T) (hU : f.Declares rules written U) :
    (Node.type T).same (.type U) = true := by
  obtain ⟨d, r, r', T', parsed, body, same⟩ := hT "" ""
  obtain ⟨d', q, q', U', parsed', body', same'⟩ := hU "" ""
  rw [parsed] at parsed'
  cases parsed'
  rw [body] at body'
  cases body'
  rw [Node.same, View.same_iff] at same same' ⊢
  exact same.symm.trans same'

/-- The rendering of a type declares the type. -/
theorem Ty.declares_render {rules : Rules} {f : StructFrame} (fits : f.Fits rules) (T : Ty)
    (writable : T.Writable) : f.Declares rules T.render T := by
  have writes := T.lexemes_write writable false (by simp)
  refine f.declares_type fits [] ?_ (.nil false) (T.proper_lexemes writable false)
    fun at_ => ?_
  · simpa using (T.spelled_lexemes writable false (by simp)).symm
  · obtain ⟨t, steps, T', built, view⟩ := writes at_
    exact ⟨t, steps, T', built, View.same_iff.2 (congrArg View.normal view)⟩

/-- Written as the type of a struct member, the rendering of a type declares that type; different
types have different renderings; and all types of a parsed text are of those that can be written. -/
theorem Ty.render_declares (rules : Rules) (f : StructFrame) (fits : f.Fits rules)
    (source : SourceText) :
    (∀ T : Ty, T.Writable → f.Declares rules T.render T) ∧
      (∀ T U : Ty, T.Writable → U.Writable → T.render = U.render →
        (Node.type T).same (.type U) = true) ∧
      ∀ T : Ty, (Node.type T).Parsed rules source → T.Writable := by
  refine ⟨fun T => T.declares_render fits, fun T U hT hU same => ?_, fun T parsed => ?_⟩
  · exact (T.declares_render fits hT).unique (same ▸ U.declares_render fits hU)
  · have origin := parsed.sited.1.here.origin
    exact Parser.TypeOrigin.writable origin

/-- Marks of both kinds, within a map and behind it. -/
theorem Ty.render_declares_nested :
    let rules : Rules := ⟨.flat, reservedWords, .none⟩
    let f : StructFrame := ⟨"1.1", "S", "x"⟩
    let items : Ty := .array ⟨0, 0⟩ (.optional ⟨0, 0⟩ (.struct ⟨0, 0⟩ "Sample")) true
    let T : Ty := .optional ⟨0, 0⟩ (.map ⟨0, 0⟩ (.atom ⟨0, 0⟩ .file) (.optional ⟨0, 0⟩ items))
    f.Fits rules ∧ T.render = "Map[File,Array[Sample?]+?]?" ∧ T.Writable ∧
      f.Declares rules T.render T := by
  intro rules f items T
  have fits : f.Fits rules := ⟨by decide, by decide, by decide⟩
  have writable : T.Writable := by decide
  exact ⟨fits, by decide, writable,
    (Ty.render_declares rules f fits (.ofString "" "" "")).1 T writable⟩

end Wdl
