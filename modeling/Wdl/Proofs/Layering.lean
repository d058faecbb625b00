import Wdl.Proofs.Overlaying
import Wdl.Proofs.Sessions

/-!
# Wdl.Proofs.Layering -- the value of an option after any number of overrides

Overrides are put over a configuration one after the other, and each of them takes effect or is
rejected for a value that the parser cannot use. What the configuration says of an option after that
is what the last of the overrides that took effect says of it, or else the variable of the option,
or else the file, or else what is packaged. If nothing says anything, the option is missing.

* `layered? vars given file sec key` is the value that is expected, with `given` the overrides that
  took effect.
* `Settled` says of a list of overrides that each takes effect or is rejected for an unusable value,
  and `accepted` picks those that take effect. Other faults leave the overrides half filled in;
  `Breaks` is what such a run comes to, and is shown not to happen here.
* `Stands given c` is the invariant: the overrides of `c` are those that were given, over a file of
  literal values. One override keeps it, and a list of them does by induction.
* `Stands.find_eq` reads off the value of an option from it.

This holds of files and overrides in which no percent sign stands for something else, and of
sections with names of their own (`Mild`). Under the empty name the overrides are shared by all
sections.
-/

namespace Wdl

/-! ## Names -/

/-- A text with letters has letters in its small form. -/
theorem LetterCase.small_ne_empty {s : String} (filled : s ≠ "") : small s ≠ "" := by
  have letters : ∀ before c after, smallChar before c after ≠ [] := by
    intro before c after
    unfold smallChar
    split
    · simp
    · split
      · simp
      · split
        · simp
        · simp
  intro empty
  have nothing : smallAfter [] s.toList = [] := String.ofList_inj.1 empty
  cases chars : s.toList with
  | nil => exact filled (String.toList_inj.1 chars)
  | cons c cs =>
    rw [chars, smallAfter, List.append_eq_nil_iff] at nothing
    exact letters _ _ _ nothing.1

namespace Config

open Layer

/-- The name of the shared options is in capital letters, so no small form is that name. -/
theorem small_named {sec : String} (filled : sec ≠ "") :
    isShared (LetterCase.small sec) = false := by
  have other : LetterCase.small sec ≠ sharedName := by
    intro same
    have twice := LetterCase.small_small sec
    rw [same] at twice
    exact absurd twice (by decide +kernel)
  simp [isShared, other, LetterCase.small_ne_empty filled]

/-! ## Overrides that cannot be filled in

Overrides that settle are fillable (`Plain.fillable_of_settles`), because the other ones break with
a fault that is no unusable value. That is shown by going through the ways in which filling in can
stop. -/

/-- Changes stop at a fault that is no unusable value. -/
def Breaks {α : Type} (m : Filling α) (l : Layer) : Prop :=
  ∃ (fault : Fault) (l' : Layer), ¬fault.IsUnusable ∧
    StateT.run (ExceptT.run m) l = (.error fault, l')

section Breaking

variable {α β : Type} {m : Filling α} {k : α → Filling β} {l l₁ : Layer} {x : α}

/-- What stops stops what is behind it. -/
theorem Breaks.bind (breaks : Breaks m l) : Breaks (m >>= k) l := by
  obtain ⟨fault, l', other, eq⟩ := breaks
  refine ⟨fault, l', other, ?_⟩
  simp only [ExceptT.run_bind, StateT.run_bind]
  rw [eq]
  rfl

/-- What runs and then stops stops. -/
theorem Layer.Fills.breaks (first : Fills m l x l₁) (second : Breaks (k x) l₁) :
    Breaks (m >>= k) l := by
  obtain ⟨fault, l', other, eq⟩ := second
  refine ⟨fault, l', other, ?_⟩
  unfold Fills at first
  simp only [ExceptT.run_bind, StateT.run_bind]
  rw [first]
  exact eq

/-- A fault that is no unusable value stops a run. -/
theorem Breaks.lift {e : Except Fault α} {fault : Fault} (failed : e = .error fault)
    (other : ¬fault.IsUnusable) (l : Layer) : Breaks (liftM e : Filling α) l := by
  rw [failed]
  exact ⟨fault, l, other, rfl⟩

end Breaking

/-- Literal options have different names, or the first one that has a name of before stops them. -/
theorem fillOptions_cases (sec : String) {options : Options}
    (literal : ∀ o ∈ options, IsLiteral o.2) (seen : List String) (l : Layer) :
    ((options.map fun o => LetterCase.small o.1).Nodup ∧
        ∀ o ∈ options, LetterCase.small o.1 ∉ seen) ∨
      Breaks (fillOptions sec seen (present options)) l := by
  induction options generalizing seen l with
  | nil => exact .inl ⟨.nil, by simp⟩
  | cons o options ih =>
    rw [List.forall_mem_cons] at literal
    rw [List.map_cons, List.nodup_cons, List.forall_mem_cons]
    show _ ∨ Breaks (fillOptions sec seen ((o.1, .ok o.2) :: present options)) l
    rw [fillOptions]
    by_cases again : seen.contains (LetterCase.small o.1) = true
    · -- The name was set before, in letters of some case, and its turn stops the rest.
      right
      apply Fills.breaks (.lift rfl l)
      simp only [if_pos again]
      exact ⟨.repeatedOverride sec (LetterCase.small o.1), l, by simp [Fault.IsUnusable], rfl⟩
    · rcases ih literal.2 (LetterCase.small o.1 :: seen)
          (mapSection sec (setKey (LetterCase.small o.1) o.2) l) with ⟨distinct, fresh⟩ | breaks
      · -- The names behind this one differ from it because they are not among those seen with it.
        left
        refine ⟨⟨?_, distinct⟩, by simpa using again, fun p hp => ?_⟩
        · intro there
          obtain ⟨p, hp, same⟩ := List.mem_map.1 there
          exact fresh p hp (same ▸ List.mem_cons_self)
        · exact fun there => fresh p hp (List.mem_cons_of_mem _ there)
      · right
        apply Fills.breaks (.lift rfl l)
        simp only [if_neg again]
        exact Fills.breaks (.lift (checkPercents_literal literal.1) l)
          (Fills.breaks (.modify _ l) breaks)

/-- Sections of literal options can all be filled in, or one of them stops the rest. -/
theorem fill_cases {entries : List (String × Options)}
    (literal : ∀ entry ∈ entries, ∀ o ∈ entry.2, IsLiteral o.2) (l : Layer) :
    (∀ entry ∈ entries, Fillable entry.2) ∨ Breaks (fill (presentAll entries)) l := by
  induction entries generalizing l with
  | nil => exact .inl (by simp)
  | cons entry entries ih =>
    rw [List.forall_mem_cons] at literal
    rw [List.forall_mem_cons]
    show _ ∨ Breaks (fill ((entry.1, present entry.2) :: presentAll entries)) l
    rw [fill]
    rcases fillOptions_cases entry.1 literal.1 [] (addSection entry.1 l) with
      ⟨distinct, -⟩ | breaks
    · have fillable : Fillable entry.2 := ⟨distinct, literal.1⟩
      rcases ih literal.2 (put l entry) with rest | breaks
      · exact .inl ⟨fillable, rest⟩
      · exact .inr (Fills.breaks (.modify _ l)
          (Fills.breaks (fillOptions_fills entry.1 fillable (by simp) _) breaks))
    · exact .inr (Fills.breaks (.modify _ l) breaks.bind)

/-- Overrides are all mappings, or one of them stops the rest. -/
theorem texts_cases (overrides : Overrides) (l : Layer) :
    (∀ s ∈ overrides, ∃ members, s.2 = .object members) ∨
      Breaks (overrides.mapM fun s => do return (s.1, ← overrideTexts s.2)) l := by
  induction overrides with
  | nil => exact .inl (by simp)
  | cons s overrides ih =>
    rw [List.mapM_cons, List.forall_mem_cons]
    by_cases object : ∃ members, s.2 = .object members
    · rcases ih with objects | breaks
      · exact .inl ⟨object, objects⟩
      · exact .inr (Fills.breaks (.bind (.lift (overrideTexts_object object) l) rfl) breaks.bind)
    · -- What is no object is at fault before the values behind it are looked at.
      have failed : overrideTexts s.2 = .error (.noMapping (typeName s.2)) := by
        unfold overrideTexts
        split
        · rename_i members eq
          exact absurd ⟨members, eq⟩ object
        · rfl
      exact .inr (.bind (.bind (.lift failed (by simp [Fault.IsUnusable]) l)))

/-- Overrides of literal values can be filled in, or they stop at a fault that is no unusable
value. -/
theorem addOverrides_cases {before : Layer} (plain : before.Plain) {overrides : Overrides}
    (literal : ∀ s ∈ overrides, ∀ o ∈ overrideOptions s.2, IsLiteral o.2) :
    FillableOverrides overrides ∨ Breaks (addOverrides before overrides) .empty := by
  unfold addOverrides
  rw [plain.spelledOut]
  -- What was there before goes back in without a fault, so the first fault is one of the overrides.
  have told := fill_fills plain.told .empty
  rcases texts_cases overrides (before.told.foldl put .empty) with objects | breaks
  · have entries : ∀ entry ∈ overrideEntries overrides, ∀ o ∈ entry.2, IsLiteral o.2 := by
      rw [overrideEntries, List.forall_mem_map]
      exact literal
    rcases fill_cases entries (before.told.foldl put .empty) with fillable | breaks
    · rw [overrideEntries, List.forall_mem_map] at fillable
      exact .inl ⟨objects, fillable⟩
    · exact .inr (told.breaks (Fills.breaks (texts_fills objects _) breaks))
  · exact .inr (told.breaks breaks.bind)

/-! ## Calls that settle -/

/-- Overrides of literal values, under names of sections that have options of their own. -/
structure Mild (overrides : Overrides) : Prop where
  named : ∀ s ∈ overrides, isShared s.1 = false
  literal : ∀ s ∈ overrides, ∀ o ∈ overrideOptions s.2, IsLiteral o.2

/-- The sections of mild overrides have names of their own. -/
theorem Mild.entries {overrides : Overrides} (mild : Mild overrides) :
    ∀ entry ∈ overrideEntries overrides, isShared entry.1 = false := by
  rw [overrideEntries, List.forall_mem_map]
  exact mild.named

/-- Overrides take effect, or they are rejected for a value that the parser cannot use. -/
def Settles (vars : Variables) (c : Config) (overrides : Overrides) : Prop :=
  (∃ record, (c.override vars overrides).2 = .ok record) ∨
    ∃ fault : Fault, fault.IsUnusable ∧ (c.override vars overrides).2 = .error fault

/-- Each of the overrides settles when it is put over a configuration after those before it. -/
def Settled (vars : Variables) : Config → List Overrides → Prop
  | _, [] => True
  | c, overrides :: calls =>
    Settles vars c overrides ∧ Settled vars (c.override vars overrides).1 calls

/-- Of overrides that are put over a configuration one after the other, those that take effect. -/
def accepted (vars : Variables) : Config → List Overrides → List Overrides
  | _, [] => []
  | c, overrides :: calls =>
    match c.override vars overrides with
    | (c, .ok _) => overrides :: accepted vars c calls
    | (c, .error _) => accepted vars c calls

/-- Mild overrides that settle can be filled in. -/
theorem Plain.fillable_of_settles {c : Config} (plain : c.Plain) {vars : Variables}
    {overrides : Overrides} (mild : Mild overrides) (settles : Settles vars c overrides) :
    FillableOverrides overrides := by
  rcases addOverrides_cases plain.overrides mild.literal with fillable | ⟨fault, l, other, eq⟩
  · exact fillable
  · have failed : (c.override vars overrides).2 = .error fault := by
      unfold Config.override
      rw [eq]
    rcases settles with ⟨record, ok⟩ | ⟨_, unusable, eq⟩
    · rw [failed] at ok
      cases ok
    · rw [failed] at eq
      cases eq
      exact absurd unusable other

/-! ## Layers -/

/-- What the last of some overrides that mention an option say of it. -/
def lastMention? (given : List Overrides) (sec key : String) : Option String :=
  (given.flatMap fun overrides => mentions (overrideEntries overrides)).reverse.lookup (sec, key)

/-- What is said of an option by the highest layer that says something of it. -/
def layered? (vars : Variables) (given : List Overrides) (file : Layer) (sec key : String) :
    Option String :=
  (lastMention? given sec key).or ((vars.lookup (variableName sec key)).or
    ((file.said? sec key).or (packaged.said? sec key)))

/-- The option is missing, or its section is. -/
def Fault.IsMissing (fault : Fault) : Prop :=
  ∃ sec key, fault = .missingSection sec ∨ fault = .missingOption sec key

/-- The overrides of a configuration are those that were given, over a file of literal values. -/
structure Stands (given : List Overrides) (c : Config) : Prop where
  plain : c.overrides.Plain
  own : c.overrides.Own
  file : c.file.Literal
  said : ∀ sec key, c.overrides.said? sec key = lastMention? given sec key

/-- What is given last is asked first. -/
theorem lastMention?_snoc (given : List Overrides) (overrides : Overrides) (sec key : String) :
    lastMention? (given ++ [overrides]) sec key =
      ((mentions (overrideEntries overrides)).reverse.lookup (sec, key)).or
        (lastMention? given sec key) := by
  rw [lastMention?, List.flatMap_append, List.reverse_append, List.lookup_append]
  simp [lastMention?]

/-- What a file of literal values says can be read. -/
theorem Layer.Literal.readable {file : Layer} (literal : file.Literal) : Readable file := by
  intro rule hr has
  rw [hasOption_eq (named_of_rule hr), Option.isSome_iff_exists] at has
  obtain ⟨value, said⟩ := has
  exact ⟨value, literal.get_eq said⟩

variable {vars : Variables} {given : List Overrides} {c : Config}

/-- The layers are asked from the highest to the lowest one, and what they say is read as it is
written. -/
theorem Stands.find_told (stands : Stands given c) {sec : String} (named : isShared sec = false)
    (key : String) :
    c.find vars sec key =
      match c.overrides.said? sec key with
      | some value => .ok (value, .overrides)
      | none =>
        match vars.lookup (variableName sec key) with
        | some value => .ok (value, .variable (variableName sec key))
        | none =>
          match c.file.said? sec key with
          | some value => .ok (value, .file (c.fileName.getD ""))
          | none =>
            match packaged.said? sec key with
            | some value => .ok (value, .packaged)
            | none =>
              if c.hasSection sec then .error (.missingOption sec key)
              else .error (.missingSection sec) := by
  unfold find
  dsimp only
  rw [hasOption_eq named, hasOption_eq named, hasOption_eq named]
  cases overridden : c.overrides.said? sec key with
  | some value =>
    show (do return (← c.overrides.get sec key, Origin.overrides)) = _
    rw [stands.plain.literal.get_eq overridden]
    rfl
  | none =>
    cases vars.lookup (variableName sec key) with
    | some value => rfl
    | none =>
      cases filed : c.file.said? sec key with
      | some value =>
        show (do return (← c.file.get sec key, Origin.file (c.fileName.getD ""))) = _
        rw [stands.file.get_eq filed]
        rfl
      | none =>
        cases packed : packaged.said? sec key with
        | some value =>
          show (do return (← packaged.get sec key, Origin.packaged)) = _
          rw [packaged_plain.literal.get_eq packed]
          rfl
        | none => rfl

/-- The value of an option is what the highest layer says that says something of it. -/
theorem Stands.find_eq (stands : Stands given c) (vars : Variables) {sec : String}
    (named : isShared sec = false) (key : String) :
    match layered? vars given c.file sec key with
    | some value => ∃ origin, c.find vars sec key = .ok (value, origin)
    | none => ∃ fault : Fault, fault.IsMissing ∧ c.find vars sec key = .error fault := by
  rw [stands.find_told named, layered?, ← stands.said]
  cases c.overrides.said? sec key with
  | some value => exact ⟨_, rfl⟩
  | none =>
    cases vars.lookup (variableName sec key) with
    | some value => exact ⟨_, rfl⟩
    | none =>
      cases c.file.said? sec key with
      | some value => exact ⟨_, rfl⟩
      | none =>
        cases packaged.said? sec key with
        | some value => exact ⟨_, rfl⟩
        | none =>
          -- No layer says anything, so all that is left is to say what is missing.
          show ∃ fault : Fault, fault.IsMissing ∧
            (if c.hasSection sec then _ else _) = Except.error fault
          split
          · exact ⟨_, ⟨sec, key, .inr rfl⟩, rfl⟩
          · exact ⟨_, ⟨sec, key, .inl rfl⟩, rfl⟩

/-- What the highest layers say of the parser's options is of use to the parser. -/
def usable (vars : Variables) (given : List Overrides) (file : Layer) : Bool :=
  rules.all fun rule =>
    (layered? vars given file rule.sec rule.key).any fun value => rule.accepts (trimmed value)

/-- A configuration is checked by what its layers say. -/
theorem Stands.check_iff (stands : Stands given c) :
    c.check vars = .ok () ↔ usable vars given c.file = true := by
  have each : ∀ rule ∈ rules, c.checkRule vars rule = .ok () ↔
      (layered? vars given c.file rule.sec rule.key).any
        (fun value => rule.accepts (trimmed value)) = true := by
    intro rule hr
    have found := stands.find_eq vars (named_of_rule hr) rule.key
    unfold checkRule
    cases told : layered? vars given c.file rule.sec rule.key with
    | some value =>
      rw [told] at found
      obtain ⟨origin, found⟩ := found
      rw [found]
      show (if rule.accepts (trimmed value) = true then Except.ok () else Except.error _) = _ ↔
        rule.accepts (trimmed value) = true
      split
      · rename_i accepted
        simp [accepted]
      · rename_i rejected
        simp [rejected]
    | none =>
      rw [told] at found
      obtain ⟨fault, -, failed⟩ := found
      rw [failed]
      simp [bind, Except.bind]
  unfold check usable
  rw [forM_eq_ok, List.all_eq_true]
  exact forall₂_congr each

/-! ## Runs

`Stands.override` is the step and `Stands.overrideAll` the run. Which overrides take effect is
decided by what they would leave behind, so `accepted`, which runs the configuration, is the same as
`effective`, which looks at layers only. -/

/-- Such a configuration is plain. -/
theorem Stands.plainConfig (stands : Stands given c) : c.Plain :=
  ⟨stands.plain, stands.file.readable⟩

/-- Putting overrides that can be filled in over it keeps that, with them as the last ones given. -/
theorem Stands.overlaid (stands : Stands given c) {overrides : Overrides} (mild : Mild overrides)
    (fillable : FillableOverrides overrides) :
    Stands (given ++ [overrides]) { c with overrides := overlaid c.overrides overrides } := by
  refine ⟨stands.plain.overlaid fillable, ?_, stands.file, fun sec key => ?_⟩
  · rw [overlaid_eq stands.plain stands.own]
    exact stands.own.putAll mild.entries
  · rw [overlaid_eq stands.plain stands.own, said?_putAll stands.own mild.entries,
      lastMention?_snoc, stands.said]

/-- Mild overrides that settle take effect if they leave the parser's options usable, and nothing
changes if they do not. -/
theorem Stands.override (stands : Stands given c) {overrides : Overrides} (mild : Mild overrides)
    (settles : Settles vars c overrides) :
    (usable vars (given ++ [overrides]) c.file = true ∧ ∃ c' record,
        c.override vars overrides = (c', .ok record) ∧ Stands (given ++ [overrides]) c') ∨
      usable vars (given ++ [overrides]) c.file = false ∧
        ∃ fault, c.override vars overrides = (c, .error fault) := by
  have plain := stands.plainConfig
  have fillable := plain.fillable_of_settles mild settles
  have stands' := stands.overlaid mild fillable
  rcases plain.override_outcomes vars fillable with
    ⟨checked, ⟨record, eq⟩ | ⟨-, sec, reason, eq⟩⟩ | ⟨fault, -, failed, eq⟩
  · exact .inl ⟨stands'.check_iff.1 checked, _, record, eq, stands'⟩
  · -- Overrides that cannot be logged settle in no way.
    exfalso
    rcases settles with ⟨record, ok⟩ | ⟨fault, ⟨_, _, _, _, _, rfl⟩, failed⟩
    · rw [eq] at ok
      cases ok
    · rw [eq] at failed
      cases failed
  -- a rejected override failed its check, so what it would leave is not usable
  · refine .inr ⟨?_, fault, eq⟩
    rw [Bool.eq_false_iff]
    intro useful
    rw [stands'.check_iff.2 useful] at failed
    cases failed

/-- Of overrides that follow others, those that leave the parser's options usable. -/
def effective (vars : Variables) (file : Layer) : List Overrides → List Overrides → List Overrides
  | _, [] => []
  | given, overrides :: calls =>
    if usable vars (given ++ [overrides]) file then
      overrides :: effective vars file (given ++ [overrides]) calls
    else effective vars file given calls

/-- After mild overrides that settle, a checked configuration has those that took effect, which are
those that leave it usable. -/
theorem Stands.overrideAll (stands : Stands given c) (useful : usable vars given c.file = true)
    {calls : List Overrides} (mild : ∀ overrides ∈ calls, Mild overrides)
    (settled : Settled vars c calls) :
    accepted vars c calls = effective vars c.file given calls ∧
      Stands (given ++ accepted vars c calls) (c.overrideAll (calls.map (vars, ·))) ∧
      usable vars (given ++ accepted vars c calls) c.file = true := by
  -- The induction is on the calls, over every configuration that stands for what was given so far.
  induction calls generalizing c given with
  | nil =>
    rw [accepted, effective, List.append_nil]
    exact ⟨rfl, stands, useful⟩
  | cons overrides calls ih =>
    rw [List.forall_mem_cons] at mild
    obtain ⟨settles, rest⟩ := settled
    show _ ∧ Stands _ ((c.override vars overrides).1.overrideAll _) ∧ _
    have file := override_file c vars overrides
    rw [accepted, effective]
    rcases stands.override mild.1 settles with
      ⟨useful', c', record, eq, stands'⟩ | ⟨useless, fault, eq⟩
    · rw [eq] at rest file ⊢
      rw [← file] at useful' ⊢
      have reached := ih stands' useful' mild.2 rest
      rw [List.append_assoc] at reached
      rw [if_pos useful']
      exact ⟨congrArg _ reached.1, reached.2⟩
    · rw [eq] at rest ⊢
      rw [if_neg (by simp [useless])]
      exact ih stands useful mild.2 rest

/-- What is loaded from files without percent signs has the overrides that were given then, and is
usable. -/
theorem Stands.loaded {s : Surroundings} (literal : ∀ entry ∈ s.files.entries,
    Utf8.percent ∉ entry.2) {names : Option (List String)} {first : Overrides} {log : Log}
    {c : Config} (loaded : load s names first = (log, .ok c)) (mild : Mild first) :
    Stands [first] c ∧ usable s.environment [first] c.file = true := by
  obtain ⟨names, loaded⟩ : ∃ names, loadFrom s names first = (log, .ok c) := by
    unfold load at loaded
    split at loaded
    · exact ⟨_, loaded⟩
    · cases loaded
  -- before the overrides of the load nothing is overridden, and the file is empty or was read
  obtain ⟨base, more, fresh, file, settled⟩ := loadFrom_settles loaded
  have start : Stands [] base := by
    refine ⟨fresh ▸ .empty, fresh ▸ .empty, ?_, fun sec key => by rw [fresh]; rfl⟩
    rcases file with empty | ⟨name, bytes, read, layer⟩
    · exact empty ▸ .empty
    · obtain ⟨entry, hentry, rfl⟩ := Files.mem_of_read read
      exact Layer.ofBytes_literal (literal entry hentry) layer
  unfold settle at settled
  split at settled
  · cases checked : base.check s.environment with
    | error fault => simp [checked, bind, Except.bind] at settled
    | ok _ =>
      rw [checked] at settled
      cases settled
      -- To give overrides that say nothing is to give none.
      have stands : Stands [[]] c := ⟨start.plain, start.own, start.file, start.said⟩
      exact ⟨stands, stands.check_iff.1 checked⟩
  · split at settled
    · rename_i eq
      cases settled
      have settles : Settles s.environment base first := .inl ⟨_, by rw [eq]⟩
      have file := override_file base s.environment first
      rw [eq] at file
      rcases start.override mild settles with ⟨useful, c', record, eq', stands⟩ | ⟨-, fault, eq'⟩
      · rw [eq] at eq'
        cases eq'
        exact ⟨stands, file ▸ useful⟩
      · rw [eq] at eq'
        cases eq'
    · cases settled

/-! ## Values -/

/-- The value of an option of a named section, in letters of any case. -/
theorem Stands.get_eq (stands : Stands given c) (vars : Variables) {sec : String}
    (filled : sec ≠ "") (key : String) :
    match layered? vars given c.file (LetterCase.small sec) (LetterCase.small key) with
    | some value => c.get vars sec key = .ok (trimmed value)
    | none => ∃ fault : Fault, fault.IsMissing ∧ c.get vars sec key = .error fault := by
  have found := stands.find_eq vars (small_named filled) (LetterCase.small key)
  unfold get
  split
  · rename_i value eq
    rw [eq] at found
    obtain ⟨origin, found⟩ := found
    rw [found]
    rfl
  · rename_i eq
    rw [eq] at found
    obtain ⟨fault, missing, failed⟩ := found
    rw [failed]
    exact ⟨fault, missing, rfl⟩

/-- A configuration is loaded from files without percent signs, and then mild overrides are put over
it, each of which takes effect or is rejected for a value that the parser cannot use. The value of
an option is then the one of the highest layer that has it, where the last override that took
effect counts before those before it, and if there is none the option is missing. In any case the
options of the parser are usable. -/
theorem get_layered {s : Surroundings} (literal : ∀ entry ∈ s.files.entries,
    Utf8.percent ∉ entry.2) {names : Option (List String)} {first : Overrides} {log : Log}
    {c : Config} (loaded : load s names first = (log, .ok c)) {calls : List Overrides}
    (mild : ∀ overrides ∈ first :: calls, Mild overrides)
    (settled : Settled s.environment c calls) :
    let given := first :: accepted s.environment c calls
    let reached := c.overrideAll (calls.map (s.environment, ·))
    (∀ sec key, sec ≠ "" →
      match layered? s.environment given c.file (LetterCase.small sec) (LetterCase.small key) with
      | some value => reached.get s.environment sec key = .ok (trimmed value)
      | none =>
        ∃ fault : Fault, fault.IsMissing ∧ reached.get s.environment sec key = .error fault) ∧
    (∃ name fe, reached.get s.environment parserSection frontEndKey = .ok name ∧
      FrontEnd.ofName? name = some fe) ∧
    ∃ b, reached.getBool s.environment parserSection checkKey = .ok b := by
  intro given reached
  rw [List.forall_mem_cons] at mild
  obtain ⟨start, useful⟩ := Stands.loaded literal loaded mild.1
  obtain ⟨-, stands, useful⟩ := start.overrideAll useful mild.2 settled
  have file : reached.file = c.file := overrideAll_file c _
  rw [← file] at useful ⊢
  have checked := stands.check_iff.2 useful
  have sets : Sets (fun rule => s.environment.lookup (variableName rule.sec rule.key))
      s.environment := fun _ _ => rfl
  exact ⟨fun sec key filled => stands.get_eq s.environment filled key,
    get_frontEnd checked sets sets, getBool_check checked sets sets⟩

/-- Plain overrides settle over a plain configuration. -/
theorem Plain.settles {c : Config} (plain : c.Plain) (vars : Variables) {overrides : Overrides}
    (fillable : PlainOverrides overrides) : Settles vars c overrides := by
  rcases plain.override_cases vars fillable with ⟨record, eq⟩ | ⟨fault, unusable, eq⟩
  · exact .inl ⟨record, by rw [eq]⟩
  · exact .inr ⟨fault, unusable, by rw [eq]⟩

/-- Plain overrides settle one after the other. -/
theorem Plain.settled {c : Config} (plain : c.Plain) (vars : Variables) {calls : List Overrides}
    (fillable : ∀ overrides ∈ calls, PlainOverrides overrides) : Settled vars c calls := by
  induction calls generalizing c with
  | nil => trivial
  | cons overrides calls ih =>
    rw [List.forall_mem_cons] at fillable
    exact ⟨plain.settles vars fillable.1, ih (plain.override vars fillable.1) fillable.2⟩

/-- An override that names a front end is mild. -/
theorem frontEndOverride_mild {name : String} (literal : IsLiteral name) :
    Mild (frontEndOverride name) where
  named s hs := by
    rw [List.mem_singleton.1 hs]
    rfl
  literal s hs := by
    have plain := (frontEndOverride_plain literal).fillable s hs
    exact plain.literal

/-- No front end has the second name, so the option keeps the first one. -/
theorem get_layered_flat :
    (bare.overrideAll [([], frontEndOverride "flat"), ([], frontEndOverride "round")]).get []
      "PARSER" "Front_End" = .ok "flat" := by
  let s : Surroundings := ⟨[], ⟨[], []⟩⟩
  let calls := [frontEndOverride "flat", frontEndOverride "round"]
  have loaded : load s (some []) [] = ([Log.configMissing []], .ok bare) := bare_loaded ⟨[], []⟩
  have mild : ∀ overrides ∈ [] :: calls, Mild overrides := by
    simp only [calls, List.forall_mem_cons, List.not_mem_nil, false_imp_iff, implies_true, and_true]
    exact ⟨⟨by simp, by simp⟩, frontEndOverride_mild (by decide), frontEndOverride_mild (by decide)⟩
  have settled : Settled s.environment bare calls := by
    apply bare_plain.settled
    simp only [calls, List.forall_mem_cons, List.not_mem_nil, false_imp_iff, implies_true, and_true]
    exact ⟨frontEndOverride_plain (by decide), frontEndOverride_plain (by decide)⟩
  obtain ⟨start, useful⟩ := Stands.loaded (by simp [s]) loaded (mild [] (by simp))
  have first : accepted [] bare calls = [frontEndOverride "flat"] := by
    rw [(start.overrideAll useful (fun o ho => mild o (by simp [ho])) settled).1]
    have flat : usable [] ([[]] ++ [frontEndOverride "flat"]) bare.file = true := by decide +kernel
    have round : usable [] ([[]] ++ [frontEndOverride "flat"] ++ [frontEndOverride "round"])
        bare.file = false := by decide +kernel
    show effective [] bare.file [[]] calls = _
    rw [effective, if_pos flat, effective, if_neg (Bool.eq_false_iff.1 round), effective]
  have value := (get_layered (by simp [s]) loaded mild settled).1 "PARSER" "Front_End" (by decide)
  have told : layered? [] ([] :: [frontEndOverride "flat"]) bare.file (LetterCase.small "PARSER")
      (LetterCase.small "Front_End") = some "flat" := by decide +kernel
  rw [show accepted s.environment bare calls = _ from first] at value
  rw [show layered? s.environment _ _ _ _ = _ from told] at value
  exact value

/-! ## Options that are shared

The condition on names cannot be dropped, neither for overrides nor for the option that is asked
for. The two configurations here show what becomes of each. -/

/-- Overrides of which the first stand under the empty name of a section. -/
def nameless : Overrides :=
  [("", .object [(frontEndKey, .text "flat")]),
   (parserSection, .object [(checkKey, .boolean true)])]

/-- What such overrides make of the configuration of which nothing is said but what is packaged. -/
def namelessOver : Config :=
  ⟨⟨[(frontEndKey, "flat")], [("", []), (parserSection, [(checkKey, "true")])]⟩, .empty, none⟩

/-- These overrides can be filled in and logged. -/
theorem nameless_plain : PlainOverrides nameless where
  objects := by simp [nameless]
  fillable := by
    have flat : Fillable [(frontEndKey, "flat")] := ⟨by simp, by decide⟩
    have words : Fillable [(checkKey, "true")] := ⟨by simp, by decide⟩
    simpa [nameless, overrideOptions, overrideText, Datum.display] using ⟨flat, words⟩
  loggable := rfl

/-- The parser sees the shared option as its own. -/
theorem namelessOver_frontEnd :
    namelessOver.find [] parserSection frontEndKey = .ok ("flat", .overrides) := by
  have read : namelessOver.overrides.get parserSection frontEndKey = .ok "flat" :=
    get_literal rfl rfl (by decide)
  show (do return (← namelessOver.overrides.get parserSection frontEndKey, Origin.overrides)) = _
  rw [read]
  rfl

/-- The configuration is usable with it. -/
theorem namelessOver_check : namelessOver.check [] = .ok () := by
  have read : namelessOver.overrides.get parserSection checkKey = .ok "true" :=
    get_literal rfl rfl (by decide)
  have words : namelessOver.find [] parserSection checkKey = .ok ("true", .overrides) := by
    show (do return (← namelessOver.overrides.get parserSection checkKey, Origin.overrides)) = _
    rw [read]
    rfl
  rw [check, forM_eq_ok, rules]
  simp only [List.forall_mem_cons, List.not_mem_nil, false_imp_iff, implies_true, and_true,
    checkRule, namelessOver_frontEnd, words]
  decide +kernel

/-- The overrides take effect. -/
theorem override_nameless : ∃ record, bare.override [] nameless = (namelessOver, .ok record) := by
  have left : overlaid .empty nameless = namelessOver.overrides := by decide +kernel
  rcases bare_plain.override_outcomes [] nameless_plain.toFillableOverrides with
    ⟨-, ⟨record, eq⟩ | ⟨clash, -⟩⟩ | ⟨fault, -, failed, -⟩
  · rw [show bare.overrides = .empty from rfl, left] at eq
    exact ⟨record, eq⟩
  · exact absurd nameless_plain.loggable clash
  · rw [show bare.overrides = .empty from rfl, left] at failed
    cases namelessOver_check.symm.trans failed

/-- Surroundings in which the configuration file has shared options only. -/
def sharing : Surroundings :=
  ⟨[("WDLAST_CFG", "/c")], ⟨[], [(["c"], "[DEFAULT]\nk = v\n".toUTF8.toList)]⟩⟩

/-- What is loaded there. -/
def sharingLoaded : Config := ⟨.empty, ⟨[("k", "v")], []⟩, some "/c"⟩

/-- The configuration is loaded from the file there. -/
theorem load_sharing : load sharing none [] = ([Log.configRead "/c"], .ok sharingLoaded) := by
  have stands : Stands [[]] sharingLoaded :=
    ⟨.empty, .empty, ⟨by simp [sharingLoaded, IsLiteral], by simp [sharingLoaded]⟩, fun _ _ => rfl⟩
  have checked : sharingLoaded.check sharing.environment = .ok () :=
    stands.check_iff.2 (by decide +kernel)
  have found : (["/c"].findSome? fun name => (sharing.files.read name).toOption.map (name, ·)) =
      some ("/c", "[DEFAULT]\nk = v\n".toUTF8.toList) := by decide +kernel
  have layer : ofBytes "/c" "[DEFAULT]\nk = v\n".toUTF8.toList = .ok ⟨[("k", "v")], []⟩ := by
    decide +kernel
  have names : Search.paths? sharing.environment = some ["/c"] := by decide +kernel
  have settled : settle sharing.environment ⟨.empty, ⟨[("k", "v")], []⟩, some "/c"⟩ [] =
      .ok (sharingLoaded, []) := settle_checked checked
  rw [load, names]
  show loadFrom sharing ["/c"] [] = _
  unfold loadFrom
  rw [found]
  simp only [layer, Except.map, bind, Except.bind, settled]

/-- Overrides under the empty name say something of all sections although they mention none of
them, and the shared options of a file are found under that name and cannot be read there. -/
theorem get_shared :
    ((∃ record, (bare.override [] nameless).2 = .ok record) ∧
      layered? [] [[], nameless] bare.file parserSection frontEndKey = some "tree" ∧
      (bare.override [] nameless).1.get [] parserSection frontEndKey = .ok "flat") ∧
    load sharing none [] = ([Log.configRead "/c"], .ok sharingLoaded) ∧
      sharingLoaded.get sharing.environment "" "k" = .error (.unknownSection "") := by
  obtain ⟨record, done⟩ := override_nameless
  rw [done]
  refine ⟨⟨⟨record, rfl⟩, by decide +kernel, ?_⟩, load_sharing, by decide +kernel⟩
  rw [get, small_parserSection, small_frontEndKey, namelessOver_frontEnd]
  decide +kernel

end Config

end Wdl
