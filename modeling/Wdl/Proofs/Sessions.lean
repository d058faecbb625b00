import Wdl.Proofs.Limits
import Wdl.Proofs.Overriding
import Wdl.Session

/-!
# Wdl.Proofs.Sessions -- how calls of a session may fail

The variables and files may change from one call to the next. As long as a configuration can be read
where one is looked for, and the variables that set the parser's options stay as they are, a call
fails in three ways only: the configuration has a value that the parser cannot use, the caller names
a front end that there is not, or the text is rejected for breaking a rule of the language. What a
session keeps from call to call is a configuration that has been checked.

* `Surroundings.Readable` and `Sets` are the two conditions, and `Failure.Documented` are the three
  ways.
* `load_cases` and `parse_documented` are about one call. The values that were checked when the
  configuration was loaded are found again later, under other variables that set the parser's
  options alike: `find_of_check`.
* `Kept` is what a session keeps. `Kept.parse` is one call, and `run_documented` a whole run.

Without the condition on files there are further failures: `parse_headless` shows one, for whatever
is to be parsed. The condition on digits, `ShortOfDigits`, is about the text; `Wdl.Proofs.Limits`
shows what becomes of longer numbers.
-/

namespace Wdl

/-! ## What is looked for -/

/-- A configuration can be read where one is looked for. -/
structure Surroundings.Readable (s : Surroundings) : Prop where
  /-- It is known where to look. -/
  search : ∃ names, Config.Search.paths? s.environment = some names
  /-- The file that is found there can be read, and what it says of the parser's options. -/
  file : ∀ names, Config.Search.paths? s.environment = some names → ∀ name bytes,
    (names.findSome? fun name => (s.files.read name).toOption.map (name, ·)) = some (name, bytes) →
      ∃ file, Config.Layer.ofBytes name bytes = .ok file ∧ Config.Readable file

/-- The variables set the parser's options to given values, or not at all. -/
def Sets (given : Config.Rule → Option String) (vars : Variables) : Prop :=
  ∀ rule ∈ Config.rules, vars.lookup (Config.variableName rule.sec rule.key) = given rule

/-- The failures that a request is documented to have. -/
def Failure.Documented (r : Request) : Failure → Prop
  | .unusableConfig name fault => name = r.source.uri ∧ fault.IsUnusable
  | .unknownFrontEnd name => r.frontEnd = some name
  | .rejected source e => source = r.source ∧ e.Defined
  | _ => False

/-! ## Checked configurations

A check asks for each option of the parser whether its value is accepted. What it has found is what
is found under other variables that set these options alike, since no other variable matters to
them. -/

namespace Config

/-- Of the variables, only those of the option matter to its value. -/
theorem find_congr {vars vars' : Variables} (c : Config) {sec key : String}
    (same : vars.lookup (variableName sec key) = vars'.lookup (variableName sec key)) :
    c.find vars sec key = c.find vars' sec key := by
  simp only [find, same]

/-- A checked configuration has usable values of the parser's options, also under other variables
that set these alike. -/
theorem find_of_check {c : Config} {vars vars' : Variables} {given : Rule → Option String}
    (checked : c.check vars = .ok ()) (sets : Sets given vars) (sets' : Sets given vars')
    {rule : Rule} (hr : rule ∈ rules) :
    ∃ found, c.find vars' rule.sec rule.key = .ok found ∧
      rule.accepts (trimmed found.1) = true := by
  have accepted := forM_eq_ok.1 checked rule hr
  unfold checkRule at accepted
  rw [find_congr c ((sets rule hr).trans (sets' rule hr).symm)] at accepted
  cases eq : c.find vars' rule.sec rule.key with
  | error fault => simp [eq, bind, Except.bind] at accepted
  | ok found =>
    refine ⟨found, rfl, ?_⟩
    simp only [eq, bind, Except.bind] at accepted
    split at accepted
    · assumption
    · cases accepted

theorem small_parserSection : LetterCase.small parserSection = parserSection := by decide +kernel

theorem small_frontEndKey : LetterCase.small frontEndKey = frontEndKey := by decide +kernel

theorem small_checkKey : LetterCase.small checkKey = checkKey := by decide +kernel

/-- The names of the parser's options are in small letters. -/
theorem small_of_rule {rule : Rule} (hr : rule ∈ rules) :
    LetterCase.small rule.sec = rule.sec ∧ LetterCase.small rule.key = rule.key := by
  simp only [rules, List.mem_cons, List.not_mem_nil, or_false] at hr
  rcases hr with rfl | rfl
  · exact ⟨small_parserSection, small_frontEndKey⟩
  · exact ⟨small_parserSection, small_checkKey⟩

/-- What is usable is found under its name. -/
theorem get_of_find {c : Config} {vars : Variables} {rule : Rule} (hr : rule ∈ rules)
    {found : String × Origin} (h : c.find vars rule.sec rule.key = .ok found) :
    c.get vars rule.sec rule.key = .ok (trimmed found.1) := by
  unfold get
  rw [(small_of_rule hr).1, (small_of_rule hr).2, h]
  rfl

/-- A checked configuration names a front end. -/
theorem get_frontEnd {c : Config} {vars vars' : Variables} {given : Rule → Option String}
    (checked : c.check vars = .ok ()) (sets : Sets given vars) (sets' : Sets given vars') :
    ∃ name fe, c.get vars' parserSection frontEndKey = .ok name ∧
      FrontEnd.ofName? name = some fe := by
  have hr : ⟨parserSection, frontEndKey, "one of: " ++ FrontEnd.names,
      fun s => (FrontEnd.ofName? s).isSome⟩ ∈ rules := by
    rw [rules]
    exact List.mem_cons_self
  obtain ⟨found, eq, known⟩ := find_of_check checked sets sets' hr
  obtain ⟨fe, hfe⟩ := Option.isSome_iff_exists.1 known
  exact ⟨_, fe, get_of_find hr eq, hfe⟩

/-- A checked configuration says whether reserved words are checked. -/
theorem getBool_check {c : Config} {vars vars' : Variables} {given : Rule → Option String}
    (checked : c.check vars = .ok ()) (sets : Sets given vars) (sets' : Sets given vars') :
    ∃ b, c.getBool vars' parserSection checkKey = .ok b := by
  have hr : ⟨parserSection, checkKey, truthExpected, fun s => (truth? s).isSome⟩ ∈ rules := by
    rw [rules]
    exact List.mem_cons_of_mem _ List.mem_cons_self
  obtain ⟨found, eq, known⟩ := find_of_check checked sets sets' hr
  have value : c.get vars' parserSection checkKey = .ok (trimmed found.1) := get_of_find hr eq
  dsimp only at known
  rw [Option.isSome_iff_exists] at known
  obtain ⟨b, hb⟩ := known
  refine ⟨b, ?_⟩
  simp only [getBool, value, bind, Except.bind, hb]
  rfl

/-- A plain configuration is settled as it is, or a value in it is unusable. -/
theorem settle_cases {c : Config} (plain : c.Plain) (vars : Variables) :
    (∃ log, settle vars c [] = .ok (c, log) ∧ c.check vars = .ok ()) ∨
      ∃ fault : Fault, fault.IsUnusable ∧ settle vars c [] = .error fault := by
  unfold settle
  rcases plain.check_cases vars with checked | ⟨fault, unusable, failed⟩
  · simp only [checked]
    exact .inl ⟨_, rfl, trivial⟩
  · simp only [failed]
    exact .inr ⟨fault, unusable, rfl⟩

/-- What is loaded where a configuration can be read is checked, or a value in it is unusable. -/
theorem load_cases {s : Surroundings} (readable : s.Readable) :
    (∃ log c, load s none [] = (log, .ok c) ∧ c.check s.environment = .ok ()) ∨
      ∃ log, ∃ fault : Fault, fault.IsUnusable ∧ load s none [] = (log, .error fault) := by
  obtain ⟨names, search⟩ := readable.search
  have loaded : load s none [] = loadFrom s names [] := by simp only [load, search]; rfl
  rw [loaded]
  unfold loadFrom
  cases found : names.findSome? fun name => (s.files.read name).toOption.map (name, ·) with
  | none =>
    rcases settle_cases (c := bare) ⟨.empty, bare_readable⟩ s.environment with
      ⟨log, settled, checked⟩ | ⟨fault, unusable, failed⟩
    · refine .inl ⟨Log.configMissing names :: log, bare, ?_, checked⟩
      simp only [bare] at settled
      simp only [bind, Except.bind, settled]
      rfl
    · refine .inr ⟨[Log.configMissing names], fault, unusable, ?_⟩
      simp only [bare] at failed
      simp only [bind, Except.bind, failed]
  | some entry =>
    obtain ⟨name, bytes⟩ := entry
    obtain ⟨file, read, usable⟩ := readable.file names search name bytes found
    rcases settle_cases (c := ⟨.empty, file, some name⟩) ⟨.empty, usable⟩ s.environment with
      ⟨log, settled, checked⟩ | ⟨fault, unusable, failed⟩
    · refine .inl ⟨Log.configRead name :: log, _, ?_, checked⟩
      simp only [read, Except.map, bind, Except.bind, settled]
    · refine .inr ⟨[Log.configRead name], fault, unusable, ?_⟩
      simp only [read, Except.map, bind, Except.bind, failed]

end Config

/-! ## Requests

A request takes the front end from the caller or from the configuration, and the reserved words
likewise. With a configuration that has been checked only the caller's front end can be unknown. -/

namespace Request

open Config

variable {c : Config} {vars vars' : Variables} {given : Rule → Option String}

/-- Under a checked configuration there is a front end for a request, unless the caller names one
that there is not. -/
theorem frontEndOf_cases (checked : c.check vars = .ok ()) (sets : Sets given vars)
    (sets' : Sets given vars') (r : Request) :
    (∃ fe, r.frontEndOf vars' c = .ok fe) ∨
      ∃ name, r.frontEnd = some name ∧ r.frontEndOf vars' c = .error (.unknownFrontEnd name) := by
  obtain ⟨name, fe, named, known⟩ := get_frontEnd checked sets sets'
  unfold frontEndOf
  split
  · simp only [named, Except.mapError, bind, Except.bind, known]
    exact .inl ⟨fe, rfl⟩
  · simp only [named, Except.mapError, bind, Except.bind, known]
    exact .inl ⟨fe, rfl⟩
  · rename_i explicit _ asked
    simp only [bind, Except.bind]
    split
    · exact .inl ⟨_, rfl⟩
    · exact .inr ⟨explicit, asked, rfl⟩

/-- The same goes for the rules as a whole. -/
theorem rulesOf_cases (checked : c.check vars = .ok ()) (sets : Sets given vars)
    (sets' : Sets given vars') (r : Request) (N : CharacterNames) :
    (∃ rules, r.rulesOf vars' c N = .ok rules) ∨
      ∃ name, r.frontEnd = some name ∧ r.rulesOf vars' c N = .error (.unknownFrontEnd name) := by
  obtain ⟨b, checks⟩ := getBool_check checked sets sets'
  unfold rulesOf
  rcases frontEndOf_cases checked sets sets' r with ⟨fe, eq⟩ | ⟨name, asked, eq⟩
  · rw [eq, checks]
    exact .inl ⟨_, rfl⟩
  · rw [eq]
    exact .inr ⟨name, asked, rfl⟩

/-- A text that is short of digits is rejected for breaking a rule of the language only. -/
theorem parseBy_documented {r : Request} (short : ShortOfDigits r.source.chars) (rules : Rules)
    {failure : Failure} (failed : (r.parseBy rules).2 = .error failure) :
    failure.Documented r := by
  have finished : ∀ {α : Type} (p : Parsed α) (node : α → Node) (elements : α → Option Nat),
      (∀ e, p.result = .error e → e.Defined) →
      (r.finish rules p node elements).2 = .error failure → failure.Documented r := by
    intro α p node elements defined failed
    unfold finish at failed
    split at failed
    · rename_i e rejected
      cases failed
      exact ⟨rfl, defined e rejected⟩
    · cases failed
  unfold parseBy at failed
  split at failed
  · exact finished _ _ _ (fun e => parseDocument_defined short) failed
  · exact finished _ _ _ (fun e => parseExpr_defined short) failed

/-- Under a checked configuration a request fails as it is documented to. -/
theorem parse_documented {r : Request} (short : ShortOfDigits r.source.chars)
    (checked : c.check vars = .ok ()) (sets : Sets given vars) (sets' : Sets given vars')
    {N : CharacterNames} {failure : Failure} (failed : (r.parse vars' c N).2 = .error failure) :
    failure.Documented r := by
  unfold Request.parse at failed
  rcases rulesOf_cases checked sets sets' r N with ⟨rules, eq⟩ | ⟨name, asked, eq⟩
  · rw [eq] at failed
    exact parseBy_documented short rules failed
  · rw [eq] at failed
    cases failed
    exact asked

end Request

/-! ## Sessions

The configuration is loaded by the first call for which this succeeds, and kept from then on. A call
for which it fails leaves the session as it was. -/

namespace Session

/-- The configuration that a session keeps has been checked under variables that set the parser's
options as given. -/
def Kept (given : Config.Rule → Option String) (session : Session) : Prop :=
  ∀ c, session.config = some c → ∃ vars, Sets given vars ∧ c.check vars = .ok ()

/-- At the start there is nothing that would have to be checked. -/
theorem Kept.start (given : Config.Rule → Option String) : start.Kept given := by
  intro c h
  cases h

variable {given : Config.Rule → Option String} {session : Session} {s : Surroundings} {r : Request}

/-- A call keeps a checked configuration and fails as it is documented to. -/
theorem Kept.parse (kept : session.Kept given) (readable : s.Readable)
    (sets : Sets given s.environment) (short : ShortOfDigits r.source.chars) (N : CharacterNames) :
    (session.parse s r N).1.Kept given ∧
      ∀ failure, (session.parse s r N).2.2 = .error failure → failure.Documented r := by
  unfold Session.parse configFor
  cases config : session.config with
  | some c =>
    obtain ⟨vars, before, checked⟩ := kept c config
    exact ⟨kept, fun failure => Request.parse_documented short checked before sets⟩
  | none =>
    rcases Config.load_cases readable with
      ⟨log, c, loaded, checked⟩ | ⟨log, fault, unusable, failed⟩
    · simp only [loaded]
      refine ⟨?_, fun failure => Request.parse_documented short checked sets sets⟩
      rintro _ ⟨⟩
      exact ⟨s.environment, sets, checked⟩
    · obtain ⟨sec, key, expected, value, origin, rfl⟩ := id unusable
      simp only [failed]
      refine ⟨kept, ?_⟩
      rintro _ ⟨⟩
      exact ⟨rfl, unusable⟩

/-- The outcomes of calls of a session, each in the surroundings of its time. -/
def run (N : CharacterNames) : Session → List (Surroundings × Request) → List Outcome
  | _, [] => []
  | session, call :: calls =>
    (session.parse call.1 call.2 N).2 :: run N (session.parse call.1 call.2 N).1 calls

/-- All calls of a session fail as they are documented to. -/
theorem run_documented {calls : List (Surroundings × Request)} (N : CharacterNames)
    (readable : ∀ call ∈ calls, call.1.Readable)
    (sets : ∀ call ∈ calls, Sets given call.1.environment)
    (short : ∀ call ∈ calls, ShortOfDigits call.2.source.chars) :
    List.Forall₂ (fun call outcome => ∀ failure, outcome.2 = .error failure →
      failure.Documented call.2) calls (start.run N calls) := by
  have all : ∀ {session : Session}, session.Kept given →
      List.Forall₂ (fun call outcome => ∀ failure, outcome.2 = .error failure →
        failure.Documented call.2) calls (session.run N calls) := by
    induction calls with
    | nil => exact fun _ => .nil
    | cons call calls ih =>
      rw [List.forall_mem_cons] at readable sets short
      intro session kept
      obtain ⟨kept', documented⟩ := kept.parse readable.1 sets.1 short.1 N
      exact .cons documented (ih readable.2 sets.2 short.2 kept')
  exact all (.start given)

/-- Surroundings in which the configuration file has a line before its first header. -/
def headless : Surroundings :=
  ⟨[("WDLAST_CFG", "/c")], ⟨[], [(["c"], "a = b\n".toUTF8.toList)]⟩⟩

/-- Its first line is reported, with its number and its text. -/
theorem load_headless :
    (Config.load headless none []).2 = .error (.noHeader "/c" 1 "a = b\n") := by
  decide +kernel

/-- A file that cannot be read as a configuration is reported as such, whatever is to be parsed. -/
theorem parse_headless (r : Request) (N : CharacterNames) :
    (start.parse headless r N).2.2 = .error (.config (.noHeader "/c" 1 "a = b\n")) := by
  have fault := load_headless
  unfold Session.parse configFor start
  cases loaded : Config.load headless none [] with
  | mk log result =>
    rw [loaded] at fault
    cases fault
    rfl

end Session

end Wdl
