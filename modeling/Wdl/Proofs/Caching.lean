import Wdl.Proofs.Sessions

/-!
# Wdl.Proofs.Caching -- what a session keeps from call to call

A session loads its configuration at the first call at which one can be loaded, and keeps it. A call
that fails to load one changes nothing, so the next call tries again. From then on files do not
matter any more, but variables do: what a call gives depends on its arguments, on the configuration
that is kept, and on what the variables of the parser's options say at that time. It is the same as
under the variables of the load as long as these are set as they were.

* `config_parse` is the step: after a call a session has the configuration it had, or else the one
  that `loadable?` gives. `config_after` is the run, by induction on the calls.
* `run_unloaded` and `run_loaded` are the two stretches of a run, before the load and behind it, and
  `run_once` puts them together with the call that loads.
* `run_undecided` shows that the condition on variables in `run_once` is needed: a variable that is
  set after the load makes a later call fail with a fault of the configuration.

The table of character names stays the same throughout, and nothing is said about it.
-/

namespace Wdl

namespace Request

open Config

/-- Variables that set the parser's options alike have the same say in parsing. -/
theorem parse_congr {given : Rule → Option String} {vars vars' : Variables}
    (sets : Sets given vars) (sets' : Sets given vars') (c : Config) (r : Request)
    (N : CharacterNames) :
    r.parse vars c N = r.parse vars' c N := by
  have same : ∀ rule ∈ rules, c.get vars rule.sec rule.key = c.get vars' rule.sec rule.key := by
    intro rule hr
    unfold Config.get
    rw [(small_of_rule hr).1, (small_of_rule hr).2,
      find_congr c ((sets rule hr).trans (sets' rule hr).symm)]
  simp only [rules, List.forall_mem_cons, List.not_mem_nil, false_imp_iff, implies_true,
    and_true] at same
  have rules : r.rulesOf vars c N = r.rulesOf vars' c N := by
    unfold rulesOf frontEndOf getBool
    rw [same.1, same.2]
  unfold Request.parse
  rw [rules]

end Request

namespace Session

variable {session : Session} {c : Config} {N : CharacterNames}

/-- The session after some calls, each in the surroundings of its time. -/
def after (session : Session) (N : CharacterNames)
    (calls : List (Surroundings × Request)) : Session :=
  calls.foldl (fun session call => (session.parse call.1 call.2 N).1) session

/-- The configuration that can be loaded, if one can. -/
def loadable? (s : Surroundings) : Option Config := (Config.load s none []).2.toOption

/-! ## One call -/

/-- A session that has a configuration keeps it and parses under it. -/
theorem parse_loaded (config : session.config = some c) (s : Surroundings) (r : Request) :
    session.parse s r N = (session, r.parse s.environment c N) := by
  unfold Session.parse configFor
  rw [config]
  rfl

/-- After a call a session has the configuration it had, or else the one that could be loaded. -/
theorem config_parse (session : Session) (s : Surroundings) (r : Request) :
    (session.parse s r N).1.config = session.config.or (loadable? s) := by
  cases config : session.config with
  | some c =>
    rw [parse_loaded config, config]
    rfl
  | none =>
    unfold Session.parse configFor loadable?
    rw [config]
    dsimp only
    cases Config.load s none [] with
    | mk log result =>
      cases result with
      | ok c => rfl
      | error fault => cases fault <;> exact config

/-! ## Runs

A run is a list of calls from a session. Before the load it is a list of first calls, behind it a
list of calls under one configuration. -/

/-- The configuration of a session is the first one that could be loaded at one of its calls. -/
theorem config_after (session : Session) (calls : List (Surroundings × Request)) :
    (session.after N calls).config =
      session.config.or (calls.findSome? fun call => loadable? call.1) := by
  induction calls generalizing session with
  | nil => exact (Option.or_none).symm
  | cons call calls ih =>
    show (after (session.parse call.1 call.2 N).1 N calls).config = _
    rw [ih, config_parse, Option.or_assoc, List.findSome?_cons]
    cases loadable? call.1 <;> rfl

/-- A run of calls behind others starts from the session that these leave. -/
theorem run_append (session : Session) (before calls : List (Surroundings × Request)) :
    session.run N (before ++ calls) = session.run N before ++
      (session.after N before).run N calls := by
  induction before generalizing session with
  | nil => rfl
  | cons call before ih => exact congrArg _ (ih _)

/-- With a configuration, every call parses under it. -/
theorem run_loaded (config : session.config = some c) (calls : List (Surroundings × Request)) :
    session.run N calls = calls.map fun call => call.2.parse call.1.environment c N := by
  induction calls with
  | nil => rfl
  | cons call calls ih =>
    rw [run, parse_loaded config, ih]
    rfl

/-- A session without a configuration is a new one. -/
theorem eq_start (config : session.config = none) : session = start := by
  cases session
  cases config
  rfl

/-- As long as no configuration can be loaded, every call gives what it gives as the first one. -/
theorem run_unloaded {calls : List (Surroundings × Request)}
    (unloadable : ∀ call ∈ calls, loadable? call.1 = none) :
    start.run N calls = calls.map fun call => (start.parse call.1 call.2 N).2 := by
  induction calls with
  | nil => rfl
  | cons call calls ih =>
    rw [List.forall_mem_cons] at unloadable
    have again : (start.parse call.1 call.2 N).1 = start := by
      apply eq_start
      rw [config_parse, unloadable.1]
      rfl
    rw [run, again, ih unloadable.2]
    rfl

/-- Up to the first call that can load a configuration, every call tries to load one. Later calls
give what they give under that configuration and the variables of that time, in whatever
surroundings they are made, as long as the variables of the parser's options are set as they were
then. -/
theorem run_once {before calls : List (Surroundings × Request)} {call : Surroundings × Request}
    (unloadable : ∀ call ∈ before, loadable? call.1 = none) (loaded : loadable? call.1 = some c)
    (still : ∀ later ∈ calls, Sets
      (fun rule => call.1.environment.lookup (Config.variableName rule.sec rule.key))
      later.1.environment) :
    start.run N (before ++ call :: calls) =
      (before ++ [call]).map (fun call => (start.parse call.1 call.2 N).2) ++
        calls.map fun later => later.2.parse call.1.environment c N := by
  have fresh : start.after N before = start := by
    apply eq_start
    rw [config_after, List.findSome?_eq_none_iff.2 unloadable]
    rfl
  have config : (start.parse call.1 call.2 N).1.config = some c := by
    rw [config_parse, loaded]
    rfl
  have later : (calls.map fun later => later.2.parse later.1.environment c N) =
      calls.map fun later => later.2.parse call.1.environment c N := by
    apply List.map_congr_left
    intro later hl
    exact later.2.parse_congr (still later hl) (fun _ _ => rfl) c N
  rw [run_append, fresh, run_unloaded unloadable, run, run_loaded config, later]
  simp

/-! ## Variables that change -/

/-- Surroundings without files. -/
def fileless (vars : Variables) : Surroundings := ⟨vars, ⟨[], []⟩⟩

/-- A variable that says nothing of use about reserved words. -/
def undecided : Variables := [("WDLAST__PARSER__CHECK_KEYWORDS", "maybe")]

/-- What is wrong with that. -/
def undecidedFault : Config.Fault :=
  .unusable Config.parserSection Config.checkKey Config.truthExpected "maybe" none

/-- Without files and variables there is a configuration that says nothing. -/
theorem loadable_bare : loadable? (fileless []) = some Config.bare := by
  have searched : Config.Search.paths? [] =
      some ["/.config/wdlast.cfg", "/etc/xdg/wdlast.cfg"] := by decide +kernel
  have loaded : Config.load (fileless []) none [] =
      Config.loadFrom (fileless []) ["/.config/wdlast.cfg", "/etc/xdg/wdlast.cfg"] [] := by
    unfold Config.load
    rw [show (fileless []).environment = [] from rfl, searched]
    rfl
  unfold loadable?
  rw [loaded, fileless, Config.loadFrom_absent (by decide +kernel)]
  rfl

/-- A variable that was not set when the configuration was loaded makes a later call fail. -/
theorem run_undecided {first r : Request} (asked : r.frontEnd = none) :
    start.run N [(fileless [], first), (fileless undecided, r)] =
      [(start.parse (fileless []) first N).2, ([], .error (.config undecidedFault))] := by
  have config : (start.parse (fileless []) first N).1.config = some Config.bare := by
    rw [config_parse, loadable_bare]
    rfl
  have frontEnd : Config.bare.get undecided Config.parserSection Config.frontEndKey =
      .ok "tree" := by
    have unset : undecided.lookup (Config.variableName Config.parserSection Config.frontEndKey) =
        [].lookup (Config.variableName Config.parserSection Config.frontEndKey) := by decide +kernel
    rw [Config.get, Config.small_parserSection, Config.small_frontEndKey,
      Config.find_congr Config.bare unset, Config.bare_frontEnd]
    decide +kernel
  have check : Config.bare.getBool undecided Config.parserSection Config.checkKey =
      .error undecidedFault := by decide +kernel
  have rules : r.rulesOf undecided Config.bare N = .error (.config undecidedFault) := by
    unfold Request.rulesOf Request.frontEndOf
    rw [asked]
    simp only [frontEnd, check]
    rfl
  rw [run, run_loaded config]
  show [_, r.parse undecided Config.bare N] = _
  rw [Request.parse, rules]

end Session

end Wdl
