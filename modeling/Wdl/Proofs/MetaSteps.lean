import Wdl.Proofs.NumberTexts

/-!
# Wdl.Proofs.MetaSteps -- meta sections that run are read

What `Script` is for expressions: steps that run are taken as the value they write. A value is a
word, a number with at most one sign, or an array or object of values, and each of these is taken
when what is inside it is. Commas between the entries of an object may be left out, but a list that
has them all is read as such (`looseList_of_commaList`). A section is taken wherever a task or
workflow may hold one.

* `MetaPiece` is a value with the steps that write it, and `MetaPiece.Taken lex p` says that the
  parser of meta values takes them, given enough fuel for their number. `EntryPiece` is an entry of
  an object.
* `MetaPiece.taken_word`, `taken_unsigned`, `taken_signed`, `taken_array` and `taken_object` are the
  kinds of values.
* `ReadsSection` is a meta section; `ReadsSection.task` and `ReadsSection.workflow` are elements
  that hold one.
-/

namespace Wdl.Parser

open Surface

variable {α : Type} {lex : Scanner} {s s' : State} {after : Expect}

/-! ## Lists with commas -/

/-- More items with commas are read where commas may be left out. -/
theorem looseUpTo_of_moreUpTo {close : Symbol} {item : Parser α} {n : Nat} {xs : List α}
    (h : moreUpTo lex close after item n s = .ok (xs, s'))
    (ends : s'.kind? = some (.symbol close)) :
    looseUpTo lex close after item n s = .ok (xs, s') := by
  induction n generalizing s xs with
  | zero => exact h
  | succ n ih =>
    rw [moreUpTo, optionalSymbol_bind] at h
    rw [looseUpTo, optionalSymbol_bind]
    rcases h with ⟨comma, t, kind, run, h⟩ | ⟨unseen, h⟩
    · refine .inl ⟨comma, t, kind, run, ?_⟩
      rw [sees_bind] at h ⊢
      refine h.imp_right fun begun => ⟨begun.1, ?_⟩
      obtain ⟨x, u, first, h⟩ := bind_eq_ok.1 begun.2
      obtain ⟨ys, v, more, h⟩ := bind_eq_ok.1 h
      obtain ⟨rfl, rfl⟩ := pure_eq_ok.1 h
      exact bind_eq_ok.2 ⟨x, u, first, bind_eq_ok.2 ⟨ys, v, ih more, pure_eq_ok.2 ⟨rfl, rfl⟩⟩⟩
    · obtain ⟨rfl, rfl⟩ := pure_eq_ok.1 h
      refine .inr ⟨unseen, ?_⟩
      rw [sees_bind]
      exact .inr ⟨by rw [ends]; simp, h⟩

/-- A list with commas is read where commas may be left out. -/
theorem looseList_of_commaList {close : Symbol} {item : Parser α} {xs : List α}
    (h : commaList lex close after item s = .ok (xs, s'))
    (ends : s'.kind? = some (.symbol close)) :
    looseList lex close after item s = .ok (xs, s') := by
  rw [commaList, sees_bind] at h
  rw [looseList, sees_bind]
  refine h.imp_right fun begun => ⟨begun.1, ?_⟩
  obtain ⟨x, t, first, h⟩ := bind_eq_ok.1 begun.2
  rw [remaining_bind] at h
  obtain ⟨ys, u, more, h⟩ := bind_eq_ok.1 h
  obtain ⟨rfl, rfl⟩ := pure_eq_ok.1 h
  refine bind_eq_ok.2 ⟨x, t, first, ?_⟩
  rw [remaining_bind]
  exact bind_eq_ok.2 ⟨ys, u, looseUpTo_of_moreUpTo more ends, pure_eq_ok.2 ⟨rfl, rfl⟩⟩

/-! ## Reading values

The parser counts down its fuel with the depth of a value, so `Taken` is stated for any fuel that
covers the steps; inside a list there are fewer of them. -/

/-- The keywords that are meta values. -/
def metaKeyword : Option Bool → Keyword
  | none => .kwNull
  | some true => .kwTrue
  | some false => .kwFalse

/-- The value that a keyword is. -/
def metaWord (r : Range) : Option Bool → Surface.Meta
  | none => .null r
  | some value => .boolean r value

/-- A meta value with the steps that write it. -/
structure MetaPiece where
  value : Surface.Meta
  steps : List Step

/-- The steps are taken as the value. -/
structure MetaPiece.Taken (lex : Scanner) (p : MetaPiece) : Prop where
  head : ∃ x, p.steps.head? = some x ∧ x.token.kind ≠ .symbol .bracketClose
  takes : ∀ {n s s'}, p.steps.length ≤ n → Run lex s p.steps s' →
    metaUpTo lex n s = .ok (p.value, s')

namespace MetaPiece

/-- A word is taken as a value. -/
theorem taken_word (t : Token) {value : Option Bool}
    (kind : t.kind = .keyword (metaKeyword value)) :
    Taken lex ⟨metaWord t.range value, [⟨t, Expect.afterMeta⟩]⟩ := by
  refine ⟨⟨_, rfl, by simp [kind]⟩, fun {n s s'} short run => ?_⟩
  cases n with
  | zero => simp at short
  | succ n =>
    rw [metaUpTo, peek_bind, run.kind?_eq, kind]
    rcases value with _ | _ | _ <;>
    exact bind_eq_ok.2 ⟨t, s', shift_eq_ok.2 run, pure_eq_ok.2 ⟨rfl, rfl⟩⟩

/-- A number without a sign is taken as a value. -/
theorem taken_unsigned (t : Token) {kind : NumeralKind} (number : t.kind = .number kind) :
    Taken lex ⟨.number t.range none (numeral kind t), [⟨t, Expect.afterNumber⟩]⟩ := by
  refine ⟨⟨_, rfl, by simp [number]⟩, fun {n s s'} short run => ?_⟩
  cases n with
  | zero => simp at short
  | succ n =>
    rw [metaUpTo, peek_bind, run.kind?_eq, number]
    exact bind_eq_ok.2 ⟨_, s', takeNumber_eq_ok.2 ⟨t, kind, number, rfl, run⟩,
      pure_eq_ok.2 ⟨rfl, rfl⟩⟩

/-- A number with a sign is taken as a value, with its range from the sign on. -/
theorem taken_signed (sign t : Token) {kind : NumeralKind} {x : Surface.Sign}
    (signed : sign.kind = .symbol x.symbol) (number : t.kind = .number kind) :
    Taken lex ⟨.number ⟨sign.start, t.stop⟩ (some x) (numeral kind t),
      [⟨sign, Expect.numbers⟩, ⟨t, Expect.afterNumber⟩]⟩ := by
  refine ⟨⟨_, rfl, by cases x <;> simp [signed, Surface.Sign.symbol]⟩, fun {n s s'} short run => ?_⟩
  have taken : signedNumber lex x s =
      .ok (.number ⟨sign.start, t.stop⟩ (some x) (numeral kind t), s') := by
    obtain ⟨u, runSign, runNumber⟩ := run_cons.1 run
    exact bind_eq_ok.2 ⟨sign, u, shift_eq_ok.2 runSign, bind_eq_ok.2
      ⟨_, s', takeNumber_eq_ok.2 ⟨t, kind, number, rfl, runNumber⟩, pure_eq_ok.2 ⟨rfl, rfl⟩⟩⟩
  cases n with
  | zero => simp at short
  | succ n =>
    rw [metaUpTo, peek_bind, run.kind?_eq, signed]
    cases x <;> exact taken

end MetaPiece

/-- An entry of a meta object with the tokens that write it. -/
structure EntryPiece where
  name : Token
  colon : Token
  value : MetaPiece

namespace EntryPiece

/-- The entry that is written. -/
def entry (p : EntryPiece) : MetaMember :=
  (word p.name, ⟨p.name.range.start, p.value.value.range.stop⟩, p.value.value)

/-- The steps of an entry. -/
def steps (p : EntryPiece) : List Step :=
  ⟨p.name, Expect.aColon⟩ :: ⟨p.colon, Expect.metaValue⟩ :: p.value.steps

/-- The steps are taken as the entry. -/
structure Taken (lex : Scanner) (p : EntryPiece) : Prop where
  name : p.name.kind = .name
  colon : p.colon.kind = .symbol .colon
  value : p.value.Taken lex

end EntryPiece

/-- The steps of an array are taken as it if those of its items are. -/
theorem metaArray_replays (forward : Forward lex) {bracket close : Token} {items : List MetaPiece}
    {xs : List Step} {n : Nat} (opened : bracket.kind = .symbol .bracketOpen)
    (closed : close.kind = .symbol .bracketClose) (taken : ∀ q ∈ items, q.Taken lex)
    (sep : Separated Expect.metaItem (items.map MetaPiece.steps) xs) (short : xs.length ≤ n)
    (run : Run lex s (⟨bracket, Expect.metaItem⟩ :: (xs ++ [⟨close, Expect.afterMeta⟩])) s') :
    metaArray lex (metaUpTo lex n) s =
      .ok (.array ⟨bracket.start, close.stop⟩ (items.map MetaPiece.value), s') := by
  obtain ⟨t, runOpen, run⟩ := run_cons.1 run
  have each : ∀ q ∈ items, ReplaysItem lex .bracketClose (metaUpTo lex n) MetaPiece.value
      MetaPiece.steps q := fun q hq => ⟨(taken q hq).head, fun _ _ run _ =>
    (taken q hq).takes (Nat.le_trans (sep.length_le (List.mem_map_of_mem hq)) short) run⟩
  obtain ⟨u, listed, -, took⟩ := closedList_replays forward (by decide) closed each sep run
  exact bind_eq_ok.2 ⟨_, t, takeSymbol_eq_ok.2 ⟨opened, runOpen⟩, bind_eq_ok.2
    ⟨_, u, listed, bind_eq_ok.2 ⟨_, s', took, pure_eq_ok.2 ⟨rfl, rfl⟩⟩⟩⟩

/-- An array is taken as a value. -/
theorem MetaPiece.taken_array (forward : Forward lex) {bracket close : Token}
    {items : List MetaPiece} {xs : List Step} (opened : bracket.kind = .symbol .bracketOpen)
    (closed : close.kind = .symbol .bracketClose) (taken : ∀ q ∈ items, q.Taken lex)
    (sep : Separated Expect.metaItem (items.map MetaPiece.steps) xs) :
    Taken lex ⟨.array ⟨bracket.start, close.stop⟩ (items.map MetaPiece.value),
      ⟨bracket, Expect.metaItem⟩ :: (xs ++ [⟨close, Expect.afterMeta⟩])⟩ := by
  refine ⟨⟨_, rfl, by simp [opened]⟩, fun {n s s'} short run => ?_⟩
  simp only [List.length_cons, List.length_append] at short
  cases n with
  | zero => omega
  | succ n =>
    rw [metaUpTo, peek_bind, run.kind?_eq, opened]
    exact metaArray_replays forward opened closed taken sep (by omega) run

/-- The steps of an entry are taken as it. -/
theorem metaMember_replays {p : EntryPiece} (taken : p.Taken lex) {n : Nat}
    (short : p.steps.length ≤ n) :
    ReplaysItem lex .braceClose (metaMember lex (metaUpTo lex n)) EntryPiece.entry
      EntryPiece.steps p := by
  refine ⟨⟨_, rfl, by simp [taken.name]⟩, fun t u run _ => ?_⟩
  obtain ⟨t₁, runName, run⟩ := run_cons.1 run
  obtain ⟨t₂, runColon, runValue⟩ := run_cons.1 run
  have inner : p.value.steps.length ≤ n := by
    simp only [EntryPiece.steps, List.length_cons] at short
    omega
  exact bind_eq_ok.2 ⟨_, t₁, takeName_eq_ok.2 ⟨p.name, taken.name, rfl, runName⟩, bind_eq_ok.2
    ⟨_, t₂, takeSymbol_eq_ok.2 ⟨taken.colon, runColon⟩, bind_eq_ok.2
    ⟨_, u, taken.value.takes inner runValue, pure_eq_ok.2 ⟨rfl, rfl⟩⟩⟩⟩

/-- The steps of an object are taken as its entries. -/
theorem metaMembers_replays (forward : Forward lex) {brace close : Token}
    {entries : List EntryPiece} {xs : List Step} {n : Nat}
    (opened : brace.kind = .symbol .braceOpen) (closed : close.kind = .symbol .braceClose)
    (taken : ∀ q ∈ entries, q.Taken lex)
    (sep : Separated Expect.entries (entries.map EntryPiece.steps) xs) (short : xs.length ≤ n)
    (run : Run lex s (⟨brace, Expect.entries⟩ :: (xs ++ [⟨close, Expect.afterMetaObject⟩])) s') :
    metaMembers lex (metaUpTo lex n) s =
      .ok ((⟨brace.start, close.stop⟩, entries.map EntryPiece.entry), s') := by
  obtain ⟨t, runOpen, run⟩ := run_cons.1 run
  have each : ∀ q ∈ entries, ReplaysItem lex .braceClose (metaMember lex (metaUpTo lex n))
      EntryPiece.entry EntryPiece.steps q := fun q hq =>
    metaMember_replays (taken q hq)
      (Nat.le_trans (sep.length_le (List.mem_map_of_mem hq)) short)
  obtain ⟨u, listed, ends, took⟩ := closedList_replays forward (by decide) closed each sep run
  exact bind_eq_ok.2 ⟨_, t, takeSymbol_eq_ok.2 ⟨opened, runOpen⟩, bind_eq_ok.2
    ⟨_, u, looseList_of_commaList listed ends, bind_eq_ok.2
    ⟨_, s', took, pure_eq_ok.2 ⟨rfl, rfl⟩⟩⟩⟩

/-- An object is taken as a value. -/
theorem MetaPiece.taken_object (forward : Forward lex) {brace close : Token}
    {entries : List EntryPiece} {xs : List Step} (opened : brace.kind = .symbol .braceOpen)
    (closed : close.kind = .symbol .braceClose) (taken : ∀ q ∈ entries, q.Taken lex)
    (sep : Separated Expect.entries (entries.map EntryPiece.steps) xs) :
    Taken lex ⟨.object ⟨brace.start, close.stop⟩ (entries.map EntryPiece.entry),
      ⟨brace, Expect.entries⟩ :: (xs ++ [⟨close, Expect.afterMetaObject⟩])⟩ := by
  refine ⟨⟨_, rfl, by simp [opened]⟩, fun {n s s'} short run => ?_⟩
  simp only [List.length_cons, List.length_append] at short
  cases n with
  | zero => omega
  | succ n =>
    rw [metaUpTo, peek_bind, run.kind?_eq, opened]
    exact bind_eq_ok.2 ⟨_, s', metaMembers_replays forward opened closed taken sep (by omega) run,
      pure_eq_ok.2 ⟨rfl, rfl⟩⟩

/-- A meta section is read. -/
theorem metaSection_replays (forward : Forward lex) {start brace close : Token} {k : Keyword}
    {kind : MetaKind} {entries : List EntryPiece} {xs : List Step}
    (started : start.kind = .keyword k) (opened : brace.kind = .symbol .braceOpen)
    (closed : close.kind = .symbol .braceClose) (taken : ∀ q ∈ entries, q.Taken lex)
    (sep : Separated Expect.entries (entries.map EntryPiece.steps) xs)
    (run : Run lex s (⟨start, Expect.aBrace⟩ :: ⟨brace, Expect.entries⟩ ::
      (xs ++ [⟨close, Expect.afterMetaObject⟩])) s') :
    metaSection lex k kind s =
      .ok (⟨⟨start.start, close.stop⟩, kind, entries.map EntryPiece.entry⟩, s') := by
  obtain ⟨t, runStart, run⟩ := run_cons.1 run
  -- the characters that are left bound the depth, and no step takes less than one of them
  have used := run.length_add_left forward
  have left := t.left_le
  simp only [List.length_cons, List.length_append] at used
  refine bind_eq_ok.2 ⟨_, t, takeKeyword_eq_ok.2 ⟨started, runStart⟩, ?_⟩
  rw [remaining_bind]
  exact bind_eq_ok.2 ⟨_, s', metaMembers_replays forward opened closed taken sep (by omega) run,
    pure_eq_ok.2 ⟨rfl, rfl⟩⟩

/-! ## Tasks and workflows -/

/-- The keyword of a meta section. -/
def metaKindKeyword : MetaKind → Keyword
  | .metaSection => .kwMeta
  | .parameterMeta => .kwParameterMeta

/-- The steps are read as a meta section of a kind. -/
abbrev ReadsSection (lex : Scanner) (kind : MetaKind) (s : MetaSection) (xs : List Step) : Prop :=
  ReadsAs lex (· == .keyword (metaKindKeyword kind)) (metaSection lex (metaKindKeyword kind) kind) s
    xs

variable {kind : MetaKind} {m : MetaSection} {xs : List Step}

/-- A meta section is an item of a task. -/
theorem ReadsSection.taskItem (h : ReadsSection lex kind m xs) :
    ReadsAs lex startsTaskItem (taskItem lex) (.metadata m) xs := by
  refine h.goes (by cases kind <;> rfl) fun {t u} seen taken => ?_
  rw [Parser.taskItem, peek_bind, seen]
  cases kind <;> exact bind_eq_ok.2 ⟨m, u, taken, pure_eq_ok.2 ⟨rfl, rfl⟩⟩

/-- A meta section is an item of a workflow. -/
theorem ReadsSection.workflowItem (h : ReadsSection lex kind m xs) :
    ReadsAs lex startsWorkflowItem (workflowItem lex) (.metadata m) xs := by
  refine h.goes (by cases kind <;> rfl) fun {t u} seen taken => ?_
  rw [Parser.workflowItem, peek_bind, seen]
  cases kind <;> exact bind_eq_ok.2 ⟨m, u, taken, pure_eq_ok.2 ⟨rfl, rfl⟩⟩

/-- A workflow that is only a meta section. -/
theorem ReadsSection.workflow (forward : Forward lex) (h : ReadsSection lex kind m xs)
    (start name brace close : Token) (workflow : start.kind = .keyword .kwWorkflow)
    (named : name.kind = .name) (opened : brace.kind = .symbol .braceOpen)
    (closed : close.kind = .symbol .braceClose) :
    ReadsAs lex startsElement (element lex)
      (.workflow ⟨⟨start.start, close.stop⟩, word name, [.metadata m]⟩)
      (⟨start, Expect.aName⟩ :: ⟨name, Expect.aBrace⟩ :: ⟨brace, Expect.workflowBody⟩ ::
        (xs ++ [⟨close, Expect.elements⟩])) := by
  refine ⟨⟨_, rfl, by simp [workflow, startsElement]⟩, fun {t u} run => ?_⟩
  have each : ∀ q ∈ [(WorkflowItem.metadata m, xs)],
      ReadsAs lex startsWorkflowItem (Parser.workflowItem lex) q.1 q.2 := by
    simpa using h.workflowItem
  rw [element, peek_bind, run.kind?_eq, workflow]
  exact bind_eq_ok.2 ⟨_, u, workflow_replays forward workflow named opened closed each
    (by simpa using run), pure_eq_ok.2 ⟨rfl, rfl⟩⟩

/-- A task that is only a meta section and a command. -/
theorem ReadsSection.task (forward : Forward lex) (h : ReadsSection lex kind m xs)
    (start name brace close : Token) {p : CommandPiece} (task : start.kind = .keyword .kwTask)
    (named : name.kind = .name) (opened : brace.kind = .symbol .braceOpen)
    (closed : close.kind = .symbol .braceClose) (fits : p.Fits)
    (inner : ∀ q ∈ p.parts, ∀ x ∈ q.inner, Script .expr .placeholder x.expr x.steps) :
    ReadsAs lex startsElement (element lex)
      (.task ⟨⟨start.start, close.stop⟩, word name, [.metadata m], p.command, []⟩)
      (⟨start, Expect.aName⟩ :: ⟨name, Expect.aBrace⟩ :: ⟨brace, Expect.taskBody⟩ ::
        (xs ++ (p.steps ++ [⟨close, Expect.elements⟩]))) := by
  refine ⟨⟨_, rfl, by simp [task, startsElement]⟩, fun {t u} run => ?_⟩
  have each : ∀ q ∈ [(TaskItem.metadata m, xs)],
      ReadsAs lex startsTaskItem (Parser.taskItem lex) q.1 q.2 := by
    simpa using h.taskItem
  rw [element, peek_bind, run.kind?_eq, task]
  exact bind_eq_ok.2 ⟨_, u, task_replays forward task named opened closed each fits inner
    (by simpa using run), pure_eq_ok.2 ⟨rfl, rfl⟩⟩

end Wdl.Parser
