import Wdl.Proofs.Filling
import Wdl.Proofs.Outcomes

/-!
# Wdl.Proofs.Overriding -- overrides take effect as a whole or not at all

This holds of overrides that can be filled in: objects of literal values whose names differ, under
names of sections that can be logged (`PlainOverrides`). Over a configuration to which only such
overrides were put before, the one fault that such overrides can have is a value that the parser
cannot use, and then the configuration stays as it was. Other overrides are put over the
configuration up to the first fault, and stay there.

* `addOverrides_fills` says what filling in leaves: `overlaid before overrides`.
* `Config.Plain` is the invariant of configurations: plain overrides, and a file from which the
  parser's options can be read. All that can be at fault with one is an unusable value
  (`Plain.check_cases`).
* `Plain.override_outcomes` lists how one call can end. `Plain.override` is the step of the
  invariant and `Plain.overrideAll` the run; `Plain.loaded` is where it starts.
* `override_atomic` is the result.
-/

namespace Wdl.Config

open Layer

/-! ## Plain overrides -/

/-- The overrides of a section as texts; what is no object has none. -/
def overrideOptions : Datum → Options
  | .object members => members.map fun m => (m.1, overrideText m.2)
  | _ => []

/-- Overrides that can be filled in. -/
structure FillableOverrides (overrides : Overrides) : Prop where
  objects : ∀ s ∈ overrides, ∃ members, s.2 = .object members
  fillable : ∀ s ∈ overrides, Fillable (overrideOptions s.2)

/-- Overrides that can be filled in and logged. -/
structure PlainOverrides (overrides : Overrides) : Prop extends FillableOverrides overrides where
  loggable : LogFields.clash? overrides = none

/-- No overrides are plain. -/
theorem PlainOverrides.nil : PlainOverrides [] := ⟨⟨by simp, by simp⟩, rfl⟩

/-- The sections and texts of overrides. -/
def overrideEntries (overrides : Overrides) : List (String × Options) :=
  overrides.map fun s => (s.1, overrideOptions s.2)

/-- Overrides over those of before. -/
def overlaid (before : Layer) (overrides : Overrides) : Layer :=
  (overrideEntries overrides).foldl put (before.told.foldl put .empty)

/-- The entries of overrides that can be filled in can. -/
theorem FillableOverrides.entries {overrides : Overrides} (plain : FillableOverrides overrides) :
    ∀ entry ∈ overrideEntries overrides, Fillable entry.2 := by
  rw [overrideEntries, List.forall_mem_map]
  exact plain.fillable

/-- Overrides that can be filled in leave a plain layer. -/
theorem Layer.Plain.overlaid {before : Layer} (plain : before.Plain) {overrides : Overrides}
    (fillable : FillableOverrides overrides) : (overlaid before overrides).Plain :=
  .putAll (.putAll .empty plain.told) fillable.entries

/-- The members of an object are texts that are there. -/
theorem overrideTexts_object {value : Datum} (object : ∃ members, value = .object members) :
    overrideTexts value = .ok (present (overrideOptions value)) := by
  obtain ⟨members, rfl⟩ := object
  simp [overrideTexts, present, overrideOptions]

/-- The sections of overrides are texts, without a change to the layer. -/
theorem texts_fills {overrides : Overrides}
    (objects : ∀ s ∈ overrides, ∃ members, s.2 = .object members) (l : Layer) :
    Fills (overrides.mapM fun s => do return (s.1, ← overrideTexts s.2)) l
      (presentAll (overrideEntries overrides)) l := by
  induction overrides with
  | nil => rfl
  | cons s overrides ih =>
    rw [List.forall_mem_cons] at objects
    rw [List.mapM_cons]
    refine .bind (.bind (.lift (overrideTexts_object objects.1) l) rfl) ?_
    exact .bind (ih objects.2) rfl

/-- Overrides over those of before are filled in without a fault. -/
theorem addOverrides_fills {before : Layer} (plain : before.Plain) {overrides : Overrides}
    (fillable : FillableOverrides overrides) :
    Fills (addOverrides before overrides) .empty () (overlaid before overrides) := by
  unfold addOverrides
  rw [plain.spelledOut]
  exact .bind (fill_fills plain.told _)
    (.bind (texts_fills fillable.objects _) (fill_fills fillable.entries _))

/-! ## Checking -/

/-- A fault of the value of an option. -/
def Fault.IsUnusable (fault : Fault) : Prop :=
  ∃ sec key expected value origin, fault = .unusable sec key expected value origin

/-- Whatever the file says of the options of the parser can be read. -/
def Readable (file : Layer) : Prop :=
  ∀ rule ∈ rules, file.hasOption rule.sec rule.key = true →
    ∃ value, file.get rule.sec rule.key = .ok value

/-- A configuration of plain overrides and a readable file. -/
structure Plain (c : Config) : Prop where
  overrides : c.overrides.Plain
  file : Readable c.file

/-- The sections of the parser's options have names of their own. -/
theorem named_of_rule {rule : Rule} (hr : rule ∈ rules) : isShared rule.sec = false := by
  revert rule
  decide

/-- The parser's options are packaged. -/
theorem packaged_of_rule {rule : Rule} (hr : rule ∈ rules) :
    packaged.hasOption rule.sec rule.key = true := by
  revert rule
  decide

/-- What is packaged is plain. -/
theorem packaged_plain : packaged.Plain where
  shared := .nil
  sections := by
    have options : PlainOptions [(frontEndKey, "tree"), (checkKey, "true")] :=
      ⟨by decide, by decide, by decide⟩
    simpa [packaged] using options
  distinct := by decide
  unshared := by decide

/-- The options of the parser have values in a plain configuration. -/
theorem Plain.find_ok {c : Config} (plain : c.Plain) (vars : Variables) {rule : Rule}
    (hr : rule ∈ rules) : ∃ found, c.find vars rule.sec rule.key = .ok found := by
  unfold find
  split
  · rename_i has
    obtain ⟨value, eq⟩ := plain.overrides.get_ok (named_of_rule hr) has
    exact ⟨(value, .overrides), by rw [eq]; rfl⟩
  · dsimp only
    split
    · exact ⟨_, rfl⟩
    · split
      · rename_i has
        obtain ⟨value, eq⟩ := plain.file rule hr has
        exact ⟨_, by rw [eq]; rfl⟩
      · rw [if_pos (packaged_of_rule hr)]
        obtain ⟨value, eq⟩ := packaged_plain.get_ok (named_of_rule hr) (packaged_of_rule hr)
        exact ⟨_, by rw [eq]; rfl⟩

/-- Checks of a list give the first fault of any. -/
theorem forM_cases {α ε : Type} {f : α → Except ε Unit} {P : ε → Prop} {xs : List α}
    (each : ∀ x ∈ xs, f x = .ok () ∨ ∃ e, P e ∧ f x = .error e) :
    xs.forM f = .ok () ∨ ∃ e, P e ∧ xs.forM f = .error e := by
  induction xs with
  | nil => exact .inl rfl
  | cons x xs ih =>
    rw [List.forall_mem_cons] at each
    show (f x >>= fun _ => xs.forM f) = _ ∨ ∃ e, P e ∧ (f x >>= fun _ => xs.forM f) = _
    rcases each.1 with eq | ⟨e, he, eq⟩
    · rw [eq]
      exact ih each.2
    · exact .inr ⟨e, he, by rw [eq]; rfl⟩

/-- All that can be at fault with an option of the parser is its value. -/
theorem Plain.checkRule_cases {c : Config} (plain : c.Plain) (vars : Variables) {rule : Rule}
    (hr : rule ∈ rules) :
    c.checkRule vars rule = .ok () ∨
      ∃ fault : Fault, fault.IsUnusable ∧ c.checkRule vars rule = .error fault := by
  obtain ⟨found, eq⟩ := plain.find_ok vars hr
  unfold checkRule
  rw [eq]
  simp only [bind, Except.bind]
  split
  · exact .inl rfl
  · exact .inr ⟨_, ⟨_, _, _, _, _, rfl⟩, rfl⟩

/-- All that can be at fault with a plain configuration is a value that the parser cannot use. -/
theorem Plain.check_cases {c : Config} (plain : c.Plain) (vars : Variables) :
    c.check vars = .ok () ∨ ∃ fault : Fault, fault.IsUnusable ∧ c.check vars = .error fault :=
  forM_cases fun _ hr => plain.checkRule_cases vars hr

/-! ## Overriding -/

/-- Overrides that can be filled in take effect over a plain configuration if they leave it usable,
and are reported if they can be logged. -/
theorem Plain.override_outcomes {c : Config} (plain : c.Plain) (vars : Variables)
    {overrides : Overrides} (fillable : FillableOverrides overrides) :
    (check vars { c with overrides := overlaid c.overrides overrides } = .ok () ∧
      ((∃ record, c.override vars overrides =
          ({ c with overrides := overlaid c.overrides overrides }, .ok record)) ∨
        LogFields.clash? overrides ≠ none ∧ ∃ sec reason, c.override vars overrides =
          ({ c with overrides := overlaid c.overrides overrides },
            .error (.unloggable sec reason)))) ∨
      ∃ fault : Fault, fault.IsUnusable ∧
        check vars { c with overrides := overlaid c.overrides overrides } = .error fault ∧
        c.override vars overrides = (c, .error fault) := by
  have filled := addOverrides_fills plain.overrides fillable
  have changed : Plain { c with overrides := overlaid c.overrides overrides } :=
    ⟨plain.overrides.overlaid fillable, plain.file⟩
  unfold override
  rw [filled]
  dsimp only
  -- only a failed check takes the overrides back; what cannot be logged leaves them in place
  rcases changed.check_cases vars with eq | ⟨fault, unusable, eq⟩
  · rw [eq]
    dsimp only
    refine .inl ⟨rfl, ?_⟩
    cases clash : LogFields.clash? overrides with
    | none => exact .inl ⟨_, rfl⟩
    | some sec => exact .inr ⟨by simp, _, _, rfl⟩
  · obtain ⟨sec, key, expected, value, origin, rfl⟩ := id unusable
    rw [eq]
    exact .inr ⟨_, unusable, rfl, rfl⟩

/-- Plain overrides over a plain configuration take effect as a whole or not at all. -/
theorem Plain.override_cases {c : Config} (plain : c.Plain) (vars : Variables)
    {overrides : Overrides} (fillable : PlainOverrides overrides) :
    (∃ record, c.override vars overrides =
        ({ c with overrides := overlaid c.overrides overrides }, .ok record)) ∨
      ∃ fault : Fault, fault.IsUnusable ∧ c.override vars overrides = (c, .error fault) := by
  rcases plain.override_outcomes vars fillable.toFillableOverrides with
    ⟨-, done | ⟨clash, -⟩⟩ | ⟨fault, unusable, -, failed⟩
  · exact .inl done
  · exact absurd fillable.loggable clash
  · exact .inr ⟨fault, unusable, failed⟩

/-- Plain overrides keep a configuration plain, whether they take effect or not. -/
theorem Plain.override {c : Config} (plain : c.Plain) (vars : Variables) {overrides : Overrides}
    (fillable : PlainOverrides overrides) : (c.override vars overrides).1.Plain := by
  rcases plain.override_cases vars fillable with ⟨record, eq⟩ | ⟨fault, -, eq⟩
  · rw [eq]
    exact ⟨plain.overrides.overlaid fillable.toFillableOverrides, plain.file⟩
  · rw [eq]
    exact plain

/-- A configuration after overrides that were put over it one after the other, each under the
variables of its time, whether they took effect or not. -/
def overrideAll (c : Config) (calls : List (Variables × Overrides)) : Config :=
  calls.foldl (fun c call => (c.override call.1 call.2).1) c

/-- So do any number of them. -/
theorem Plain.overrideAll {c : Config} (plain : c.Plain) {calls : List (Variables × Overrides)}
    (fillable : ∀ call ∈ calls, PlainOverrides call.2) : (c.overrideAll calls).Plain := by
  induction calls generalizing c with
  | nil => exact plain
  | cons call calls ih =>
    rw [List.forall_mem_cons] at fillable
    exact ih (plain.override call.1 fillable.1) fillable.2

/-! ## Loading -/

/-- Overrides change nothing but the overrides. -/
theorem override_layer (c : Config) (vars : Variables) (overrides : Overrides) :
    ∃ layer, (c.override vars overrides).1 = { c with overrides := layer } := by
  unfold override
  split
  rename_i result layer _
  split
  · exact ⟨layer, rfl⟩
  · dsimp only
    split
    · split <;> exact ⟨layer, rfl⟩
    · exact ⟨c.overrides, rfl⟩
    · exact ⟨layer, rfl⟩

/-- Overrides leave the file as it is. -/
theorem override_file (c : Config) (vars : Variables) (overrides : Overrides) :
    (c.override vars overrides).1.file = c.file := by
  obtain ⟨layer, eq⟩ := override_layer c vars overrides
  rw [eq]

/-- So do any number of them. -/
theorem overrideAll_file (c : Config) (calls : List (Variables × Overrides)) :
    (c.overrideAll calls).file = c.file := by
  induction calls generalizing c with
  | nil => rfl
  | cons call calls ih => exact (ih _).trans (override_file c call.1 call.2)

/-- What is settled is the configuration, with the first overrides over it if there are any. -/
theorem settle_ok {vars : Variables} {base c : Config} {first : Overrides} {log : Log}
    (settled : settle vars base first = .ok (c, log)) :
    c = base ∨ c = (base.override vars first).1 := by
  unfold settle at settled
  split at settled
  · left
    cases checked : base.check vars with
    | error fault => simp [checked, bind, Except.bind] at settled
    | ok _ =>
      simp only [checked, bind, Except.bind, pure, Except.pure, Except.ok.injEq,
        Prod.mk.injEq] at settled
      exact settled.1.symm
  · right
    split at settled
    · rename_i eq
      rw [eq]
      simp only [Except.ok.injEq, Prod.mk.injEq] at settled
      exact settled.1.symm
    · cases settled

/-- Without overrides, a checked configuration is settled as it is. -/
theorem settle_checked {vars : Variables} {c : Config} (checked : c.check vars = .ok ()) :
    settle vars c [] = .ok (c, []) := by
  unfold settle
  rw [checked]
  rfl

/-- What is loaded settles a configuration of no overrides and a file that was found, or of none. -/
theorem loadFrom_settles {s : Surroundings} {names : List String} {first : Overrides} {log : Log}
    {c : Config} (loaded : loadFrom s names first = (log, .ok c)) :
    ∃ (base : Config) (more : Log), base.overrides = .empty ∧
      (base.file = .empty ∨ ∃ name bytes, s.files.read name = .ok bytes ∧
        Layer.ofBytes name bytes = .ok base.file) ∧
      settle s.environment base first = .ok (c, more) := by
  unfold loadFrom at loaded
  split at loaded
  rename_i record base eq
  cases base with
  | error fault => simp [bind, Except.bind] at loaded
  | ok base =>
    have origin : base.overrides = .empty ∧
        (base.file = .empty ∨ ∃ name bytes, s.files.read name = .ok bytes ∧
          Layer.ofBytes name bytes = .ok base.file) := by
      split at eq
      · cases eq
        exact ⟨rfl, .inl rfl⟩
      · rename_i name bytes found
        obtain ⟨path, -, read⟩ := List.exists_of_findSome?_eq_some found
        obtain ⟨content, read, eq'⟩ := Option.map_eq_some_iff.1 read
        cases eq'
        cases layer : Layer.ofBytes name bytes with
        | error fault => simp [layer, Except.map] at eq
        | ok file =>
          simp only [layer, Except.map, Prod.mk.injEq, Except.ok.injEq] at eq
          rw [← eq.2]
          exact ⟨rfl, .inr ⟨name, bytes, toOption_eq_some.1 read, layer⟩⟩
    simp only [bind, Except.bind] at loaded
    split at loaded
    · rename_i settled
      simp only [Prod.mk.injEq, Except.ok.injEq] at loaded
      exact ⟨base, _, origin.1, origin.2, loaded.2 ▸ settled⟩
    · simp at loaded

/-- What is loaded has no overrides but those that are put over it then. -/
theorem loadFrom_ok {s : Surroundings} {names : List String} {first : Overrides} {log : Log}
    {c : Config} (loaded : loadFrom s names first = (log, .ok c)) :
    ∃ base : Config, base.overrides = .empty ∧
      (c = base ∨ c = (base.override s.environment first).1) := by
  obtain ⟨base, more, fresh, -, settled⟩ := loadFrom_settles loaded
  exact ⟨base, fresh, settle_ok settled⟩

/-- A configuration is plain when it is loaded with plain overrides, if the parser's options can be
read from the file. -/
theorem Plain.loaded {s : Surroundings} {names : List String} {first : Overrides} {log : Log}
    {c : Config} (loaded : loadFrom s names first = (log, .ok c)) (fillable : PlainOverrides first)
    (readable : Readable c.file) : c.Plain := by
  obtain ⟨base, fresh, rfl | rfl⟩ := loadFrom_ok loaded
  · exact ⟨fresh ▸ .empty, readable⟩
  · rw [override_file] at readable
    exact .override ⟨fresh ▸ .empty, readable⟩ _ fillable

/-! ## Atomic overrides -/

/-- After a configuration was loaded and any plain overrides were put over it, further plain
overrides succeed, or one of their values cannot be used and everything stays as it was. -/
theorem override_atomic {s : Surroundings} {names : List String} {first : Overrides} {log : Log}
    {c : Config} (loaded : loadFrom s names first = (log, .ok c)) (fillable : PlainOverrides first)
    (readable : Readable c.file) {calls : List (Variables × Overrides)}
    (before : ∀ call ∈ calls, PlainOverrides call.2) (vars : Variables) {overrides : Overrides}
    (plain : PlainOverrides overrides) :
    (∃ record, ((c.overrideAll calls).override vars overrides).2 = .ok record) ∨
      ∃ fault : Fault, fault.IsUnusable ∧
        (c.overrideAll calls).override vars overrides = (c.overrideAll calls, .error fault) := by
  have reached := (Plain.loaded loaded fillable readable).overrideAll before
  rcases reached.override_cases vars plain with ⟨record, eq⟩ | failed
  · exact .inl ⟨record, by rw [eq]⟩
  · exact .inr failed

/-- The configuration of which nothing is said but what is packaged. -/
def bare : Config := ⟨.empty, .empty, none⟩

/-- Nothing else being said, the packaged front end counts. -/
theorem bare_frontEnd : bare.find [] parserSection frontEndKey = .ok ("tree", .packaged) := by
  show (do return (← packaged.get parserSection frontEndKey, Origin.packaged)) = _
  rw [get_literal rfl rfl (by decide)]
  rfl

/-- The packaged options have values that the parser can use. -/
theorem bare_find {rule : Rule} (hr : rule ∈ rules) :
    ∃ value, bare.find [] rule.sec rule.key = .ok (value, .packaged) ∧
      rule.accepts (trimmed value) = true := by
  simp only [rules, List.mem_cons, List.not_mem_nil, or_false] at hr
  rcases hr with rfl | rfl
  · exact ⟨"tree", bare_frontEnd, by decide +kernel⟩
  · refine ⟨"true", ?_, by decide +kernel⟩
    show (do return (← packaged.get parserSection checkKey, Origin.packaged)) = _
    rw [get_literal rfl rfl (by decide)]
    rfl

/-- What is packaged passes the check. -/
theorem bare_check : bare.check [] = .ok () := by
  have each : ∀ rule ∈ rules,
      bare.checkRule [] rule = .ok () ∨ ∃ fault, False ∧ bare.checkRule [] rule = .error fault := by
    intro rule hr
    obtain ⟨value, found, accepted⟩ := bare_find hr
    unfold checkRule
    rw [found]
    simp only [bind, Except.bind]
    rw [if_pos accepted]
    exact .inl rfl
  rcases forM_cases each with eq | ⟨_, absurd, -⟩
  · exact eq
  · exact absurd.elim

/-- An empty file can be read. -/
theorem bare_readable : Readable bare.file := by
  intro rule hr has
  have named := named_of_rule hr
  rw [Layer.hasOption, if_neg (by rw [named]; simp)] at has
  cases has

/-- The configuration of which nothing is said is plain. -/
theorem bare_plain : bare.Plain := ⟨.empty, bare_readable⟩

/-- Where no file is found and no variable is set, nothing is said but what is packaged. -/
theorem loadFrom_absent {files : Files} {names : List String}
    (absent : (names.findSome? fun name => (files.read name).toOption.map (name, ·)) = none) :
    loadFrom ⟨[], files⟩ names [] = ([Log.configMissing names], .ok bare) := by
  have settled : settle [] ⟨.empty, .empty, none⟩ [] = .ok (bare, []) := settle_checked bare_check
  unfold loadFrom
  rw [absent]
  simp only [bind, Except.bind, settled]

theorem bare_loaded (files : Files) :
    loadFrom ⟨[], files⟩ [] [] = ([Log.configMissing []], .ok bare) :=
  loadFrom_absent rfl

/-- The one option that the overrides say something of is the front end. -/
def frontEndOverride (name : String) : Overrides :=
  [(parserSection, .object [(frontEndKey, .text name)])]

theorem frontEndOverride_plain {name : String} (literal : IsLiteral name) :
    PlainOverrides (frontEndOverride name) where
  objects s hs := by
    rw [List.mem_singleton.1 hs]
    exact ⟨_, rfl⟩
  fillable s hs := by
    rw [List.mem_singleton.1 hs]
    exact ⟨by simp [overrideOptions], by simpa [overrideOptions, overrideText, Datum.display]⟩
  loggable := rfl

/-- No front end has the second name, so the first one stays. -/
theorem override_atomic_unknown :
    (∃ record, ((bare.overrideAll [([], frontEndOverride "flat")]).override []
        (frontEndOverride "round")).2 = .ok record) ∨
      ∃ fault : Fault, fault.IsUnusable ∧
        (bare.overrideAll [([], frontEndOverride "flat")]).override [] (frontEndOverride "round")
          = (bare.overrideAll [([], frontEndOverride "flat")], .error fault) :=
  override_atomic (bare_loaded ⟨[], []⟩) .nil bare_readable
    (by simpa using frontEndOverride_plain (by decide)) [] (frontEndOverride_plain (by decide))

/-- Overrides of which the second value has a percent sign that stands for nothing. -/
def halfLiteral : Overrides :=
  [(parserSection, .object [(frontEndKey, .text "flat"), ("x", .text "50%")])]

/-- The first value of such overrides stays when the second one is at fault. -/
theorem override_halfLiteral :
    bare.find [] parserSection frontEndKey = .ok ("tree", .packaged) ∧
      (bare.override [] halfLiteral).2 = .error (.badPercent "50%" 2) ∧
      (bare.override [] halfLiteral).1.find [] parserSection frontEndKey
        = .ok ("flat", .overrides) := by
  have filled : @Eq (Except Fault Unit × Layer)
      (StateT.run (ExceptT.run (addOverrides .empty halfLiteral)) .empty)
      (.error (.badPercent "50%" 2), ⟨[], [(parserSection, [(frontEndKey, "flat")])]⟩) := by
    decide +kernel
  have failed : bare.override [] halfLiteral =
      (⟨⟨[], [(parserSection, [(frontEndKey, "flat")])]⟩, .empty, none⟩,
        .error (.badPercent "50%" 2)) := by
    unfold override
    rw [show bare.overrides = .empty from rfl, filled]
    rfl
  rw [failed]
  refine ⟨bare_frontEnd, rfl, ?_⟩
  show (do return (← Layer.get _ parserSection frontEndKey, Origin.overrides)) = _
  rw [get_literal rfl rfl (by decide)]
  rfl

end Wdl.Config
