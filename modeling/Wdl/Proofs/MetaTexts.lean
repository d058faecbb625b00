import Wdl.Proofs.MetaSteps

/-!
# Wdl.Proofs.MetaTexts -- meta values as texts

A meta value is written with a comma and a space between the items of an array or the entries of an
object. Its text has the tokens that were meant wherever a value may stand, the tokens are taken as
a value, and that value is built to the words, lists and numbers of the text, or refused for what is
wrong with the first number in it. All of this is by induction on the value: a list comes to what
its items come to, one after the other.

* `MetaTerm` is a meta value as it is written, with its `text`, its `numbers` and its `lexemes`;
  `MetaTerm.Agrees` relates it to what is built. `MetaTerm.WellKeyed` asks that keys are words, and
  different ones in each object.
* `MetaTerm.WellKeyed.found` says that the tokens are found, and `MetaTerm.WellKeyed.written` that
  they are taken as a value that settles as the term.
* `Build.Settles refusal P c` says of a check that it gives something of which `P` holds, or breaks
  the rule `refusal`. `settles_bind` is how the first rule that is broken comes to count.
-/

namespace Wdl

open Scan
open Wdl.Parser (MetaPiece EntryPiece Forward Separated metaKeyword numeral)

/-- A meta value as it is written: a word, a number, or an array or object of such values. -/
inductive MetaTerm where
  | word (value : Option Bool)
  | number (w : NumberText)
  | array (items : List MetaTerm)
  | object (members : List (String × MetaTerm))

mutual

/-- The text of a meta value. -/
def MetaTerm.text : MetaTerm → String
  | .word value => String.ofList (metaKeyword value).spelling
  | .number w => String.ofList w.chars
  | .array items => "[" ++ ", ".intercalate (itemTexts items) ++ "]"
  | .object members => "\x7b" ++ ", ".intercalate (entryTexts members) ++ "\x7d"

/-- The texts of meta values. -/
def itemTexts : List MetaTerm → List String
  | [] => []
  | t :: rest => t.text :: itemTexts rest

/-- The texts of the entries of an object. -/
def entryTexts : List (String × MetaTerm) → List String
  | [] => []
  | (key, t) :: rest => (key ++ ": " ++ t.text) :: entryTexts rest

end

mutual

/-- The numbers of a meta value, in the order written. -/
def MetaTerm.numbers : MetaTerm → List NumberText
  | .word _ => []
  | .number w => [w]
  | .array items => itemNumbers items
  | .object members => entryNumbers members

/-- The numbers of meta values. -/
def itemNumbers : List MetaTerm → List NumberText
  | [] => []
  | t :: rest => t.numbers ++ itemNumbers rest

/-- The numbers of the entries of an object. -/
def entryNumbers : List (String × MetaTerm) → List NumberText
  | [] => []
  | (_, t) :: rest => t.numbers ++ entryNumbers rest

end

mutual

/-- The lexemes of a meta value, with a gap in front. -/
def MetaTerm.lexemes : MetaTerm → List Char → List Lexeme
  | .word value, gap => [.keyword gap (metaKeyword value) Expect.afterMeta]
  | .number w, gap => w.lexemes gap Expect.numbers
  | .array items, gap =>
    .symbol gap .bracketOpen Expect.metaItem ::
      (separated Expect.metaItem (itemLexemes items [])
        ++ [.symbol [] .bracketClose Expect.afterMeta])
  | .object members, gap =>
    .symbol gap .braceOpen Expect.entries ::
      (separated Expect.entries (entryLexemes members [])
        ++ [.symbol [] .braceClose Expect.afterMetaObject])

/-- The lexemes of meta values, the first with a gap in front, the others with a space. -/
def itemLexemes : List MetaTerm → List Char → List (List Lexeme)
  | [], _ => []
  | t :: rest, gap => t.lexemes gap :: itemLexemes rest space

/-- The lexemes of the entries of an object. -/
def entryLexemes : List (String × MetaTerm) → List Char → List (List Lexeme)
  | [], _ => []
  | (key, t) :: rest, gap =>
    (.name gap key Expect.aColon :: .symbol [] .colon Expect.metaValue :: t.lexemes space) ::
      entryLexemes rest space

end

/-- The keys of every object are different words. -/
inductive MetaTerm.WellKeyed : MetaTerm → Prop
  | word (value : Option Bool) : WellKeyed (.word value)
  | number (w : NumberText) : WellKeyed (.number w)
  | array {items : List MetaTerm} : (∀ t ∈ items, WellKeyed t) → WellKeyed (.array items)
  | object {members : List (String × MetaTerm)} : (members.map Prod.fst).Nodup →
      (∀ m ∈ members, IsWord m.1.toList) → (∀ m ∈ members, WellKeyed m.2) →
      WellKeyed (.object members)

/-- A meta value is what is written, in which every number is the one that its text is as an
expression. -/
inductive MetaTerm.Agrees (rules : Rules) : MetaTerm → Meta → Prop
  | null (r : Range) : Agrees rules (.word none) (.null r)
  | boolean (r : Range) (value : Bool) : Agrees rules (.word (some value)) (.boolean r value)
  | number {w : NumberText} {M : Meta} :
      (∀ source : SourceText, source.chars = w.chars →
        ∃ e, (parseExpr rules source).result = .ok e ∧ SameNumber M e) →
      Agrees rules (.number w) M
  | array (r : Range) {items : List MetaTerm} {values : List Meta} :
      List.Forall₂ (Agrees rules) items values → Agrees rules (.array items) (.array r values)
  | object (r : Range) {members : List (String × MetaTerm)} {entries : List (String × Meta)} :
      members.map Prod.fst = entries.map Prod.fst →
      List.Forall₂ (Agrees rules) (members.map Prod.snd) (entries.map Prod.snd) →
      Agrees rules (.object members) (.object r entries)

/-! ## Texts -/

/-- The lexemes of items spell their texts. -/
theorem spelled_items {items : List MetaTerm}
    (each : ∀ t ∈ items, ∀ gap, spelled (t.lexemes gap) = gap ++ t.text.toList) (gap : List Char) :
    (itemLexemes items gap).map spelled = spaced gap ((itemTexts items).map String.toList) := by
  induction items generalizing gap with
  | nil => rfl
  | cons t items ih =>
    obtain ⟨here, others⟩ := List.forall_mem_cons.1 each
    rw [itemLexemes, itemTexts, List.map_cons, List.map_cons, spaced, here, ih others]

/-- The lexemes of entries spell their texts. -/
theorem spelled_entries {members : List (String × MetaTerm)}
    (each : ∀ m ∈ members, ∀ gap, spelled (m.2.lexemes gap) = gap ++ m.2.text.toList)
    (gap : List Char) :
    (entryLexemes members gap).map spelled =
      spaced gap ((entryTexts members).map String.toList) := by
  induction members generalizing gap with
  | nil => rfl
  | cons m members ih =>
    obtain ⟨here, others⟩ := List.forall_mem_cons.1 each
    rw [entryLexemes, entryTexts, List.map_cons, List.map_cons, spaced, ih others, spelled_cons,
      spelled_cons, here]
    simp [Lexeme.name, Lexeme.symbol, Symbol.spelling, space]

/-- The lexemes of a meta value spell its text. -/
theorem MetaTerm.spelled_lexemes {t : MetaTerm} (keyed : t.WellKeyed) (gap : List Char) :
    spelled (t.lexemes gap) = gap ++ t.text.toList := by
  induction keyed generalizing gap with
  | word value => simp [lexemes, text, Lexeme.keyword]
  | number w => rw [lexemes, text, w.spelled_lexemes, String.toList_ofList]
  | array _ ih =>
    have items := spelled_separated Expect.metaItem _ (spelled_items ih [])
    rw [lexemes, text, spelled_cons, spelled_append, items]
    simp [Lexeme.symbol, Symbol.spelling, String.toList_intercalate]
  | object _ _ _ ih =>
    have entries := spelled_separated Expect.entries _ (spelled_entries ih [])
    rw [lexemes, text, spelled_cons, spelled_append, entries]
    simp [Lexeme.symbol, Symbol.spelling, String.toList_intercalate]

/-! ## Tokens

Behind a value stand only commas and brackets, so a number ends there (`Severed`). -/

/-- What is looked for where a meta value starts inside another. -/
def metaStarts : List Expect := [Expect.metaValue, Expect.metaItem]

/-- What is looked for behind a meta value. -/
def metaEnds : List Expect := [Expect.afterNumber, Expect.afterMeta, Expect.afterMetaObject]

/-- The brackets around a list, given what is looked for behind the opening one. -/
def metaLists : List (Expect × Symbol) :=
  [(Expect.metaItem, .bracketClose), (Expect.entries, .braceClose)]

/-- The symbols that stand behind a meta value. -/
def metaClosers : List Symbol := [.comma, .bracketClose, .braceClose]

variable {fe : FrontEnd} {A after : Expect} {ls : List Lexeme} {gap rest : List Char}

/-- A list item is legible if what is behind it is, and no number goes on there. -/
def MetaFound (fe : FrontEnd) (A : Expect) (item : List Lexeme) : Prop :=
  ∀ ⦃ls rest⦄, Severed (spelled ls ++ rest) → (∀ B ∈ metaEnds, Legible fe B ls rest) →
    Legible fe A (item ++ ls) rest

/-- No number goes on where a closing symbol stands. -/
theorem severed_closer {s : Symbol} (closer : s ∈ metaClosers) :
    Severed (spelled (.symbol [] s after :: ls) ++ rest) := by
  have each : ∀ s ∈ metaClosers, s.spelling.head?.any (fun c => !isNameChar c &&
      !isDecimalDigit c && c != '.' && c != '+' && c != '-') = true := by decide
  obtain ⟨c, head, other⟩ := (Option.any_eq_true _ _).1 (each s closer)
  simp only [Bool.and_eq_true, Bool.not_eq_true', bne_iff_ne] at other
  obtain ⟨⟨⟨⟨name, digit⟩, point⟩, plus⟩, minus⟩ := other
  have first : (spelled (.symbol [] s after :: ls) ++ rest).head? = some c := by
    rw [spelled_cons]
    show (s.spelling ++ spelled ls ++ rest).head? = some c
    rw [List.append_assoc, List.head?_append_of_ne_nil _ (spelling_ne_nil s)]
    exact head
  rw [Severed, Ended, first]
  constructor <;>
  · rintro d ⟨⟩
    simp [*]

/-- A closing symbol is found behind any value. -/
theorem legible_closer {s : Symbol} (closer : s ∈ metaClosers)
    (legible : Legible fe after ls rest) :
    ∀ B ∈ metaEnds, Legible fe B (.symbol [] s after :: ls) rest := by
  have each : ∀ s ∈ metaClosers, ∀ B ∈ metaEnds, ordinary B = true ∧ .symbol s ∈ B ∧
      unrivalled B s = true ∧ s ≠ .tildeBrace ∧ s ≠ .dot := by decide
  intro B hB
  obtain ⟨quiet, mem, alone, other, point⟩ := each s closer B hB
  exact ⟨reads_symbol quiet (.nil false) mem (clear_of_unrivalled alone) other
    (fun eq => absurd eq point), legible⟩

/-- The items of a list, with the bracket that closes it. -/
theorem legible_metaList {close : Symbol} {items : List (List Lexeme)}
    (list : (A, close) ∈ metaLists) (each : ∀ item ∈ items, MetaFound fe A item)
    (legible : Legible fe after ls rest) :
    Legible fe A (separated A items ++ .symbol [] close after :: ls) rest := by
  have lists : ∀ x ∈ metaLists, ordinary x.1 = true ∧ .symbol x.2 ∈ x.1 ∧
      unrivalled x.1 x.2 = true ∧ x.2 ∈ metaClosers ∧ x.2 ≠ .tildeBrace ∧ x.2 ≠ .dot := by decide
  obtain ⟨quiet, mem, alone, closer, other, point⟩ := lists _ list
  -- behind an item, by induction on the items that follow: a comma stands there, or the bracket
  have more : ∀ items : List (List Lexeme), (∀ item ∈ items, MetaFound fe A item) →
      let ms := (items.flatMap fun more => .symbol [] .comma A :: more) ++
        .symbol [] close after :: ls
      Severed (spelled ms ++ rest) ∧ ∀ B ∈ metaEnds, Legible fe B ms rest := by
    intro items each
    induction items with
    | nil => exact ⟨severed_closer closer, legible_closer closer legible⟩
    | cons item items ih =>
      obtain ⟨here, others⟩ := List.forall_mem_cons.1 each
      obtain ⟨severed, behind⟩ := ih others
      simp only [List.flatMap_cons, List.cons_append, List.append_assoc]
      exact ⟨severed_closer (by decide), legible_closer (by decide) (here severed behind)⟩
  cases items with
  | nil =>
    exact ⟨reads_symbol quiet (.nil false) mem (clear_of_unrivalled alone) other
      (fun eq => absurd eq point), legible⟩
  | cons item items =>
    obtain ⟨here, others⟩ := List.forall_mem_cons.1 each
    obtain ⟨severed, behind⟩ := more items others
    rw [separated, List.append_assoc]
    exact here severed behind

/-- A value is found where values start, behind any layout. -/
def MetaTerm.Found (fe : FrontEnd) (t : MetaTerm) : Prop :=
  ∀ ⦃A gap⦄, A ∈ metaStarts → Gap false gap false → MetaFound fe A (t.lexemes gap)

/-- The items of an array are found. -/
theorem metaFound_items {items : List MetaTerm} (each : ∀ t ∈ items, t.Found fe)
    (layout : Gap false gap false) :
    ∀ item ∈ itemLexemes items gap, MetaFound fe Expect.metaItem item := by
  induction items generalizing gap with
  | nil => simp [itemLexemes]
  | cons t items ih =>
    obtain ⟨here, others⟩ := List.forall_mem_cons.1 each
    rw [itemLexemes, List.forall_mem_cons]
    exact ⟨here (by decide) layout, ih others .space⟩

/-- The entries of an object are found. -/
theorem metaFound_entries {members : List (String × MetaTerm)}
    (words : ∀ m ∈ members, IsWord m.1.toList) (each : ∀ m ∈ members, m.2.Found fe)
    (layout : Gap false gap false) :
    ∀ item ∈ entryLexemes members gap, MetaFound fe Expect.entries item := by
  induction members generalizing gap with
  | nil => simp [entryLexemes]
  | cons m members ih =>
    obtain ⟨key, words⟩ := List.forall_mem_cons.1 words
    obtain ⟨here, others⟩ := List.forall_mem_cons.1 each
    rw [entryLexemes, List.forall_mem_cons]
    refine ⟨fun _ _ severed behind => ⟨?_, ?_, ?_⟩, ih words others .space⟩
    · refine reads_name_behind (by decide) layout key ?_
      rintro c ⟨⟩
      decide
    · exact reads_symbol (A := Expect.aColon) (by decide) (.nil false) (by decide)
        (clear_of_unrivalled (by decide)) (by decide) (by simp)
    · exact here (by decide) .space severed behind

/-- An object is legible wherever an opening brace is looked for. -/
theorem legible_object {members : List (String × MetaTerm)}
    (words : ∀ m ∈ members, IsWord m.1.toList) (each : ∀ m ∈ members, m.2.Found fe)
    (quiet : ordinary A = true) (mem : .symbol .braceOpen ∈ A)
    (alone : unrivalled A .braceOpen = true) (layout : Gap false gap false)
    (legible : Legible fe Expect.afterMetaObject ls rest) :
    Legible fe A ((MetaTerm.object members).lexemes gap ++ ls) rest := by
  have inner : Legible fe Expect.entries (separated Expect.entries (entryLexemes members []) ++
      .symbol [] .braceClose Expect.afterMetaObject :: ls) rest :=
    legible_metaList (by decide) (metaFound_entries words each (.nil false)) legible
  rw [MetaTerm.lexemes, List.cons_append, List.append_assoc]
  exact ⟨reads_symbol quiet layout mem (clear_of_unrivalled alone) (by decide) (by simp), inner⟩

/-- The tokens of a value are found where it stands. -/
theorem MetaTerm.WellKeyed.found {t : MetaTerm} (keyed : t.WellKeyed) : t.Found fe := by
  have starts : ∀ A ∈ metaStarts, ordinary A = true ∧ .name ∉ A ∧ .number .decimal ∈ A ∧
      .symbol .bracketOpen ∈ A ∧ unrivalled A .bracketOpen = true ∧
      .symbol .braceOpen ∈ A ∧ unrivalled A .braceOpen = true := by decide
  have words : ∀ A ∈ metaStarts, ∀ v ∈ [none, some true, some false],
      .keyword (metaKeyword v) ∈ A ∧ ∀ k ∈ Keyword.all, .keyword k ∈ A →
        k.spelling.head? = (metaKeyword v).spelling.head? → k = metaKeyword v := by decide
  have signs : ∀ A ∈ metaStarts, ∀ s ∈ [Surface.Sign.minus, .plus],
      .symbol s.symbol ∈ A ∧ unrivalled A s.symbol = true := by decide
  induction keyed with
  | word value =>
    intro A gap hA layout ls rest severed behind
    obtain ⟨quiet, unnamed, -⟩ := starts A hA
    obtain ⟨mem, alone⟩ := words A hA value (by rcases value with _ | _ | _ <;> decide)
    exact ⟨reads_keyword_unnamed quiet unnamed layout mem fun k => alone k k.mem_all,
      behind Expect.afterMeta (by decide)⟩
  -- a number is found in front of anything it does not go on with, by either front end
  | number w =>
    intro A gap hA layout ls rest severed behind
    obtain ⟨quiet, -, number, -⟩ := starts A hA
    exact w.legible quiet number (fun s => signs A hA s (by cases s <;> decide)) (by decide) layout
      severed (behind _ (by decide))
  | @array items _ ih =>
    intro A gap hA layout ls rest severed behind
    obtain ⟨quiet, -, -, mem, alone, -⟩ := starts A hA
    have inner : Legible fe Expect.metaItem (separated Expect.metaItem (itemLexemes items []) ++
        .symbol [] .bracketClose Expect.afterMeta :: ls) rest :=
      legible_metaList (by decide) (metaFound_items ih (.nil false)) (behind _ (by decide))
    rw [lexemes, List.cons_append, List.append_assoc]
    exact ⟨reads_symbol quiet layout mem (clear_of_unrivalled alone) (by decide) (by simp), inner⟩
  | object _ words _ ih =>
    intro A gap hA layout ls rest severed behind
    obtain ⟨quiet, -, -, -, -, mem, alone⟩ := starts A hA
    exact legible_object words ih quiet mem alone layout (behind _ (by decide))

/-! ## Settling checks -/

variable {α β : Type}

/-- A check gives something of a kind, or it breaks a rule, wherever that is reported. -/
def Build.Settles (refusal : Option Violation) (P : α → Prop) (c : Checked α) : Prop :=
  match refusal with
  | none => ∃ x, c = .ok x ∧ P x
  | some v => ∃ r, c = .error ⟨v, r⟩

namespace Build

variable {P : α → Prop} {Q : β → Prop} {c : Checked α} {f : α → Checked β}
  {refusal refusal' : Option Violation}

/-- Of two checks, the first that breaks a rule counts. -/
theorem settles_bind (first : Settles refusal P c) (rest : ∀ x, P x → Settles refusal' Q (f x)) :
    Settles (refusal.or refusal') Q (c >>= f) := by
  cases refusal with
  | none =>
    obtain ⟨x, rfl, good⟩ := first
    exact rest x good
  | some v =>
    obtain ⟨r, rfl⟩ := first
    exact ⟨r, rfl⟩

/-- What settles, settles when more is done to it that breaks no rule. -/
theorem settles_then (first : Settles refusal P c) (rest : ∀ x, P x → ∃ y, f x = .ok y ∧ Q y) :
    Settles refusal Q (c >>= f) := by
  rw [← Option.or_none (o := refusal)]
  exact settles_bind first rest

end Build

variable {rules : Rules} {lex : Scanner}

/-! ## Values of what is written

Keys are checked after the values are built, so a repeated key would be reported only if no number
is refused; here there are none. -/

/-- The first thing that is wrong with some numbers. -/
def firstRefusal (ws : List NumberText) : Option Violation := ws.findSome? NumberText.refusal

/-- What is wrong with numbers in front counts first. -/
theorem firstRefusal_append (ws ws' : List NumberText) :
    firstRefusal (ws ++ ws') = (firstRefusal ws).or (firstRefusal ws') := List.findSome?_append

/-- Entries have the keys and the values of those that are written. -/
def EntriesAgree (rules : Rules) (members : List (String × MetaTerm))
    (entries : List (String × Meta)) : Prop :=
  members.map Prod.fst = entries.map Prod.fst ∧
    List.Forall₂ (MetaTerm.Agrees rules) (members.map Prod.snd) (entries.map Prod.snd)

/-- A surface form is built to what is written, unless a number in it is refused. -/
def MetaTerm.Settled (rules : Rules) (t : MetaTerm) (m : Surface.Meta) : Prop :=
  Build.Settles (firstRefusal t.numbers) (t.Agrees rules) (Build.metaValue rules.names m)

/-- A number settles as it is written. -/
theorem NumberText.settled (w : NumberText) {r : Range} (r' : Range)
    (size : r.stop = r.start + w.chars.length) :
    (MetaTerm.number w).Settled rules (.number r (w.sign.map Prod.fst) ⟨r', w.kind, w.digits⟩) := by
  have here : firstRefusal (MetaTerm.number w).numbers = w.refusal := by
    simp [firstRefusal, MetaTerm.numbers]
  rw [MetaTerm.Settled, here, Build.metaValue, w.metaNumber_eq, refusal]
  cases value : w.value with
  | error v => exact ⟨r', rfl⟩
  | ok v =>
    refine ⟨_, rfl, .number fun source text => ?_⟩
    have read := w.parseExpr_eq rules text
    rw [value] at read
    exact ⟨_, read, v.same size (Nat.zero_add _).symm⟩

/-- Items settle one after the other. -/
theorem items_settled {items : List MetaTerm} {ms : List Surface.Meta}
    (each : List.Forall₂ (MetaTerm.Settled rules) items ms) :
    Build.Settles (firstRefusal (itemNumbers items))
      (List.Forall₂ (MetaTerm.Agrees rules) items) (Build.metaItems rules.names ms) := by
  induction each with
  | nil => exact ⟨[], rfl, .nil⟩
  | cons here _ ih =>
    rw [itemNumbers, firstRefusal_append]
    exact Build.settles_bind here fun M agrees =>
      Build.settles_then ih fun Ms rest => ⟨_, rfl, .cons agrees rest⟩

/-- Entries settle one after the other, and their keys are distinct. -/
theorem entries_settled {members : List (String × MetaTerm)} {ms : List Surface.MetaMember}
    (distinct : (members.map Prod.fst).Nodup)
    (each : List.Forall₂ (fun m e => e.1.text = m.1 ∧ m.2.Settled rules e.2.2) members ms) :
    Build.Settles (firstRefusal (entryNumbers members)) (EntriesAgree rules members)
      (Build.metaEntries rules.names ms >>= Build.distinct .repeatedKey []) := by
  -- keys are compared when all values are built, and then none of them is refused
  have built : Build.Settles (firstRefusal (entryNumbers members))
      (fun es => EntriesAgree rules members (es.map fun e => (e.1, e.2.1)))
      (Build.metaEntries rules.names ms) := by
    clear distinct
    induction each with
    | nil => exact ⟨[], rfl, rfl, .nil⟩
    | @cons m e members ms here _ ih =>
      rw [entryNumbers, firstRefusal_append]
      refine Build.settles_bind here.2 fun M agrees =>
        Build.settles_then ih fun es rest => ⟨_, rfl, ?_, .cons agrees rest.2⟩
      rw [List.map_cons, List.map_cons, List.map_cons, rest.1, here.1]
  refine Build.settles_then built fun es agree => ⟨_, distinct_of_nodup ?_, agree⟩
  have keys : es.map Prod.fst = members.map Prod.fst := by
    rw [agree.1, List.map_map]
    rfl
  rw [List.map_nil, List.nil_append, keys]
  exact distinct

/-! ## Writing values -/

/-- A piece is taken as a value that settles as what is written. -/
structure MetaTerm.WrittenBy (lex : Scanner) (rules : Rules) (t : MetaTerm) (p : MetaPiece) :
    Prop where
  taken : p.Taken lex
  settled : t.Settled rules p.value

/-- A piece is taken as an entry of a key with a value that settles as what is written. -/
structure EntryWrittenBy (lex : Scanner) (rules : Rules) (m : String × MetaTerm) (p : EntryPiece) :
    Prop where
  taken : p.Taken lex
  key : p.name.text = m.1
  settled : m.2.Settled rules p.value.value

/-- Wherever the lexemes of a value stand, it is written. -/
def MetaTerm.Written (lex : Scanner) (rules : Rules) (t : MetaTerm) : Prop :=
  ∀ gap, ItemRestored (MetaTerm.WrittenBy lex rules) MetaPiece.steps (t.lexemes gap) t

/-- The lexemes of items write them. -/
theorem items_written {items : List MetaTerm} (each : ∀ t ∈ items, t.Written lex rules)
    (gap : List Char) :
    List.Forall₂ (ItemRestored (MetaTerm.WrittenBy lex rules) MetaPiece.steps)
      (itemLexemes items gap) items := by
  induction items generalizing gap with
  | nil => exact .nil
  | cons t items ih =>
    obtain ⟨here, others⟩ := List.forall_mem_cons.1 each
    exact .cons (here gap) (ih others space)

/-- The lexemes of entries write them. -/
theorem entries_written {members : List (String × MetaTerm)}
    (each : ∀ m ∈ members, m.2.Written lex rules) (gap : List Char) :
    List.Forall₂ (ItemRestored (EntryWrittenBy lex rules) EntryPiece.steps)
      (entryLexemes members gap) members := by
  induction members generalizing gap with
  | nil => exact .nil
  | cons m members ih =>
    obtain ⟨here, others⟩ := List.forall_mem_cons.1 each
    refine .cons (fun at_ => ?_) (ih others space)
    have text := text_name gap m.1 Expect.aColon at_
    rw [stepsFrom, stepsFrom]
    generalize at_ + (Lexeme.name gap m.1 Expect.aColon).text.length = behind
    obtain ⟨value, writes, written⟩ := here space
      (behind + (Lexeme.symbol [] .colon Expect.metaValue).text.length)
    refine ⟨⟨(Lexeme.name gap m.1 Expect.aColon).token at_,
      (Lexeme.symbol [] .colon Expect.metaValue).token behind, value⟩,
      ⟨⟨rfl, rfl, writes.taken⟩, text, writes.settled⟩, ?_⟩
    rw [EntryPiece.steps, written]
    rfl

/-- The entries of an object are written, and settle as what is written. -/
theorem object_pieces {members : List (String × MetaTerm)} (distinct : (members.map Prod.fst).Nodup)
    (each : ∀ m ∈ members, m.2.Written lex rules) (at_ : Nat) :
    ∃ ps : List EntryPiece, (∀ p ∈ ps, p.Taken lex) ∧
      Build.Settles (firstRefusal (entryNumbers members)) (EntriesAgree rules members)
        (Build.metaEntries rules.names (ps.map EntryPiece.entry) >>=
          Build.distinct .repeatedKey []) ∧
      Separated Expect.entries (ps.map EntryPiece.steps)
        (stepsFrom at_ (separated Expect.entries (entryLexemes members []))) := by
  obtain ⟨ps, pieces, commas⟩ :=
    @separated_restored _ _ _ _ Expect.entries _ _ (entries_written each []) at_
  refine ⟨ps, forall_of_forall₂ pieces fun _ _ _ h => h.taken, ?_, commas⟩
  refine entries_settled distinct (List.forall₂_map_right_iff.2 (pieces.imp fun m p h => ?_))
  exact ⟨h.key, h.settled⟩

namespace MetaTerm

/-- The lexeme of a word writes it. -/
theorem written_word (value : Option Bool) : (word value).Written lex rules := by
  intro gap at_
  let l := Lexeme.keyword gap (metaKeyword value) Expect.afterMeta
  refine ⟨_, ⟨MetaPiece.taken_word (l.token at_) rfl, ?_⟩, rfl⟩
  cases value with
  | none => exact ⟨_, rfl, .null _⟩
  | some value => exact ⟨_, rfl, .boolean _ value⟩

/-- The lexemes of a number write it, with its sign if it has one. -/
theorem written_number (w : NumberText) : (number w).Written lex rules := by
  intro gap at_
  rw [lexemes, NumberText.lexemes]
  cases sign : w.sign with
  | none =>
    let l : Lexeme := ⟨gap, .number w.kind, w.digits, Expect.afterNumber⟩
    let r := (l.token at_).range
    have size : r.stop = r.start + w.chars.length := by
      rw [NumberText.chars, NumberText.front, sign]
      rfl
    have settled : (number w).Settled rules
        (.number r (w.sign.map Prod.fst) ⟨r, w.kind, w.digits⟩) := w.settled r size
    rw [sign] at settled
    exact ⟨_, ⟨MetaPiece.taken_unsigned (l.token at_) rfl, settled⟩, rfl⟩
  -- with a sign, the number starts where its sign does, and the numeral is behind a gap
  | some s =>
    obtain ⟨s, inner⟩ := s
    let x := (Lexeme.symbol gap s.symbol Expect.numbers).token at_
    let t : Token := ⟨.number w.kind, w.digits, x.stop + inner.length⟩
    let r : Range := ⟨x.start, t.stop⟩
    have size : r.stop = r.start + w.chars.length := by
      rw [NumberText.chars, NumberText.front, sign, List.length_append, List.length_append]
      show x.start + s.symbol.spelling.length + inner.length + w.digits.length = _
      simp only [r, Nat.add_assoc]
    have settled : (number w).Settled rules
        (.number r (w.sign.map Prod.fst) ⟨t.range, w.kind, w.digits⟩) := w.settled t.range size
    have steps : stepsFrom at_ [.symbol gap s.symbol Expect.numbers,
        ⟨inner, .number w.kind, w.digits, Expect.afterNumber⟩] =
        [⟨x, Expect.numbers⟩, ⟨t, Expect.afterNumber⟩] := by
      simp only [stepsFrom, Lexeme.step, Lexeme.text, Lexeme.symbol, List.length_append,
        ← Nat.add_assoc]
      rfl
    rw [sign] at settled
    exact ⟨_, ⟨MetaPiece.taken_signed x t rfl rfl, settled⟩, steps.symm⟩

/-- The lexemes of an array write it if those of its items do. -/
theorem written_array (forward : Forward lex) {items : List MetaTerm}
    (each : ∀ t ∈ items, t.Written lex rules) : (array items).Written lex rules := by
  intro gap at_
  let bracket := Lexeme.symbol gap .bracketOpen Expect.metaItem
  let close := Lexeme.symbol [] .bracketClose Expect.afterMeta
  obtain ⟨ps, pieces, commas⟩ := @separated_restored _ _ _ _ Expect.metaItem _ _
    (items_written each []) (at_ + bracket.text.length)
  rw [lexemes, stepsFrom, stepsFrom_append]
  refine ⟨_, ⟨MetaPiece.taken_array forward rfl rfl
    (forall_of_forall₂ pieces fun _ _ _ h => h.taken) commas, ?_⟩, rfl⟩
  have settled := items_settled (List.forall₂_map_right_iff.2 (pieces.imp fun _ _ h => h.settled))
  exact Build.settles_then settled fun Ms agree => ⟨_, rfl, .array _ agree⟩

/-- The lexemes of an object write it if those of its values do. -/
theorem written_object (forward : Forward lex) {members : List (String × MetaTerm)}
    (distinct : (members.map Prod.fst).Nodup) (each : ∀ m ∈ members, m.2.Written lex rules) :
    (object members).Written lex rules := by
  intro gap at_
  let brace := Lexeme.symbol gap .braceOpen Expect.entries
  obtain ⟨ps, taken, settled, commas⟩ := object_pieces distinct each (at_ + brace.text.length)
  rw [lexemes, stepsFrom, stepsFrom_append]
  refine ⟨_, ⟨MetaPiece.taken_object forward rfl rfl taken commas, ?_⟩, rfl⟩
  have built : ∀ r ms, Build.metaValue rules.names (.object r ms) =
      (Build.metaEntries rules.names ms >>= Build.distinct .repeatedKey []) >>= fun es =>
        pure (.object r es) := by
    intro r ms
    rw [Build.metaValue, bind_assoc]
  rw [Settled, built]
  exact Build.settles_then settled fun es agree => ⟨_, rfl, .object _ agree.1 agree.2⟩

/-- Wherever the lexemes of a value stand, it is written. -/
theorem WellKeyed.written (forward : Forward lex) {t : MetaTerm} (keyed : t.WellKeyed) :
    t.Written lex rules := by
  induction keyed with
  | word value => exact written_word value
  | number w => exact written_number w
  | array _ ih => exact written_array forward ih
  | object distinct _ _ ih => exact written_object forward distinct ih

end MetaTerm

end Wdl
