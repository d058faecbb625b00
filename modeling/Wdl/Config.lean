import Wdl.Config.Reader
import Wdl.Config.Search
import Wdl.Config.Words
import Wdl.Log
import Wdl.Text.Blank

/-!
# Wdl.Config -- layered configuration

The value of an option is that of the highest layer that has it: overrides, environment variables,
a configuration file, and the packaged defaults. Loading and overriding check the options of the
parser. Variables are looked at anew each time.
-/

namespace Wdl

/-- A configuration: the overrides and the file that were given. -/
structure Config where
  overrides : Config.Layer
  file : Config.Layer
  fileName : Option String
deriving DecidableEq, Repr

/-- Overrides: for each section an object with values by name. -/
abbrev Overrides := LogFields

namespace Config

/-- The lowest layer. -/
def packaged : Layer :=
  ⟨[], [(parserSection, [(frontEndKey, "tree"), (checkKey, "true")])]⟩

/-! ## Reading options -/

/-- The environment variable of an option. -/
def variableName (sec key : String) : String :=
  "WDLAST__" ++ LetterCase.capital sec ++ "__" ++ LetterCase.capital key

/-- Some layer has the section. -/
def hasSection (c : Config) (sec : String) : Bool :=
  packaged.hasSection sec || c.file.hasSection sec || c.overrides.hasSection sec

/-- The value of an option and where it comes from. -/
def find (vars : Variables) (c : Config) (sec key : String) : Except Fault (String × Origin) :=
  let name := variableName sec key
  if c.overrides.hasOption sec key then do return (← c.overrides.get sec key, .overrides)
  else
    match vars.lookup name with
    | some value => .ok (value, .variable name)
    | none =>
      if c.file.hasOption sec key then do
        return (← c.file.get sec key, .file (c.fileName.getD ""))
      else if packaged.hasOption sec key then do return (← packaged.get sec key, .packaged)
      else if c.hasSection sec then .error (.missingOption sec key)
      else .error (.missingSection sec)

/-- The value of an option without the space around it. Names may be in letters of any case. -/
def get (vars : Variables) (c : Config) (sec key : String) : Except Fault String := do
  let (value, _) ← c.find vars (LetterCase.small sec) (LetterCase.small key)
  return trimmed value

/-- The truth value of an option. -/
def getBool (vars : Variables) (c : Config) (sec key : String) : Except Fault Bool := do
  let value ← c.get vars sec key
  match truth? value with
  | some b => return b
  | none => throw (.unusable sec key truthExpected value none)

/-- There is a value for the option. -/
def hasOption (vars : Variables) (c : Config) (sec key : String) : Except Fault Bool :=
  match c.get vars sec key with
  | .ok _ => .ok true
  | .error (.missingSection _) | .error (.missingOption _ _) => .ok false
  | .error fault => .error fault

/-! ## Checking -/

/-- Checks one option. -/
def checkRule (vars : Variables) (c : Config) (rule : Rule) : Except Fault Unit := do
  let (value, origin) ← c.find vars rule.sec rule.key
  if rule.accepts (trimmed value) then return ()
  throw (.unusable rule.sec rule.key rule.expected value (some origin))

/-- Checks the options of the parser. -/
def check (vars : Variables) (c : Config) : Except Fault Unit :=
  rules.forM (c.checkRule vars)

/-! ## Overriding -/

/-- The text of an override. -/
def overrideText : Datum → String
  | .boolean b => if b then "true" else "false"
  | value => value.display

/-- How the type of a value is called. -/
def typeName : Datum → String
  | .null => "NoneType"
  | .boolean _ => "bool"
  | .int _ => "int"
  | .float _ => "float"
  | .text _ => "str"
  | .list _ => "list"
  | .object _ => "dict"

/-- The overrides of one section as texts. -/
def overrideTexts : Datum → Except Fault (List (String × Except Fault String))
  | .object members => .ok (members.map fun m => (m.1, .ok (overrideText m.2)))
  | value => .error (.noMapping (typeName value))

/-- Fills in the overrides before, then further ones. -/
def addOverrides (before : Layer) (overrides : Overrides) : Layer.Filling Unit := do
  Layer.fill before.spelledOut
  let texts ← overrides.mapM fun o => do return (o.1, ← overrideTexts o.2)
  Layer.fill texts

/-- Puts overrides over a configuration. If options of the parser become unusable by that, the
configuration stays as it was; after any other fault it has the overrides up to the fault. -/
def override (vars : Variables) (c : Config) (overrides : Overrides) :
    Config × Except Fault LogRecord :=
  let (result, layer) := StateT.run (ExceptT.run (addOverrides c.overrides overrides)) Layer.empty
  let changed := { c with overrides := layer }
  match result with
  | .error fault => (changed, .error fault)
  | .ok () =>
    match changed.check vars with
    | .ok () =>
      match LogFields.clash? overrides with
      | none => (changed, .ok (Log.overridden overrides))
      | some sec => (changed, .error (.unloggable sec (LogFields.clashMessage sec)))
    | .error (.unusable sec key expected value origin) =>
      (c, .error (.unusable sec key expected value origin))
    | .error fault => (changed, .error fault)

/-! ## Loading -/

/-- Checks a new configuration, or puts overrides over it. -/
def settle (vars : Variables) (c : Config) (overrides : Overrides) : Except Fault (Config × Log) :=
  match overrides with
  | [] => do
    c.check vars
    return (c, [])
  | overrides =>
    match c.override vars overrides with
    | (c, .ok record) => .ok (c, [record])
    | (_, .error fault) => .error fault

/-- Loads a configuration: the first of the files that there is, and overrides. Gives what was
logged, whether loading succeeds or not. -/
def loadFrom (s : Surroundings) (names : List String) (overrides : Overrides) :
    Log × Except Fault Config :=
  let (record, base) :=
    match names.findSome? fun name => (s.files.read name).toOption.map (name, ·) with
    | none => (Log.configMissing names, Except.ok (⟨.empty, .empty, none⟩ : Config))
    | some (name, bytes) =>
      (Log.configRead name, (Layer.ofBytes name bytes).map fun file => ⟨.empty, file, some name⟩)
  match base >>= fun c => settle s.environment c overrides with
  | .ok (c, log) => (record :: log, .ok c)
  | .error fault => ([record], .error fault)

/-- Loads a configuration. Without names of files, the variables say where one may be. -/
def load (s : Surroundings) (names : Option (List String)) (overrides : Overrides) :
    Log × Except Fault Config :=
  match names <|> Search.paths? s.environment with
  | some names => loadFrom s names overrides
  | none => ([], .error .noHome)

end Config

end Wdl
