import Wdl.Ast.Node
import Wdl.Config
import Wdl.Parse

/-!
# Wdl.Request -- parsing under a configuration

A request is a text with the form it should have and, perhaps, the front end that should read it.
The configuration settles what the request leaves open, and whether reserved words are checked.
-/

namespace Wdl

/-- The form of a text. -/
inductive Start where
  | document | expr
deriving DecidableEq, Repr, Inhabited

/-- The name of a form. -/
def Start.name : Start → String
  | .document => "document"
  | .expr => "expr"

/-- What is to be parsed. -/
structure Request where
  start : Start
  source : SourceText
  frontEnd : Option String := none

/-- Why a request gives no syntax. -/
inductive Failure where
  /-- There is no file of the name. -/
  | absent (name : String) (absence : Absence)
  /-- The file of the name is not text. -/
  | undecodable (name : String) (fault : Utf8.Fault)
  /-- The configuration to parse the text of the name with cannot be used. -/
  | unusableConfig (name : String) (fault : Config.Fault)
  /-- The configuration is at fault. -/
  | config (fault : Config.Fault)
  /-- There is no front end of the name. -/
  | unknownFrontEnd (name : String)
  /-- The text is rejected. -/
  | rejected (source : SourceText) (error : ParseError)

/-- The root of what was parsed, and the text it lies in. -/
structure Root where
  node : Node
  source : SourceText

/-- What a request gives: what was logged, and the syntax or a failure. -/
abbrev Outcome := Log × Except Failure Root

namespace Request

/-- The front end that is to read a request; an empty name is none. -/
def frontEndOf (vars : Variables) (c : Config) (r : Request) : Except Failure FrontEnd := do
  let name ←
    match r.frontEnd with
    | none | some "" => (c.get vars Config.parserSection Config.frontEndKey).mapError .config
    | some name => .ok name
  match FrontEnd.ofName? name with
  | some fe => return fe
  | none => throw (.unknownFrontEnd name)

/-- The rules that a request is parsed by. -/
def rulesOf (vars : Variables) (c : Config) (r : Request) (names : CharacterNames := .none) :
    Except Failure Rules := do
  let fe ← r.frontEndOf vars c
  let checked ← (c.getBool vars Config.parserSection Config.checkKey).mapError .config
  return ⟨fe, if checked then reservedWords else [], names⟩

/-- What parsing gives, with its number of elements if it is a document. -/
def finish {α : Type} (r : Request) (rules : Rules) (p : Parsed α) (node : α → Node)
    (elements : α → Option Nat) : Outcome :=
  let warnings := p.warnings.map (Log.ofWarning r.source)
  match p.result with
  | .error e => (warnings, .error (.rejected r.source e))
  | .ok x =>
    (warnings ++ [Log.ofParse rules.frontEnd.name r.source.uri r.start.name (elements x)],
      .ok ⟨node x, r.source⟩)

/-- Parses a request by rules. -/
def parseBy (rules : Rules) (r : Request) : Outcome :=
  match r.start with
  | .document =>
    r.finish rules (parseDocument rules r.source) .document fun d => some d.body.length
  | .expr => r.finish rules (parseExpr rules r.source) .expr fun _ => none

/-- Parses a request under a configuration. -/
def parse (vars : Variables) (c : Config) (r : Request) (names : CharacterNames := .none) :
    Outcome :=
  match r.rulesOf vars c names with
  | .ok rules => r.parseBy rules
  | .error failure => ([], .error failure)

end Request

/-! ## Wording -/

/-- The wording of a grammar error; the grammar itself gives none. -/
def ParseError.message? : ParseError → Option String
  | .syntaxError _ _ => none
  | .violated _ v => some v.violation.message

/-- The wording of a failure. -/
def Failure.message? : Failure → Option String
  | .absent _ .nullCharacter => some Absence.nullCharacter.text
  | .absent name absence =>
    some ("unable to read " ++ name ++ ": " ++ absence.text ++ ": " ++ quoted name)
  | .undecodable name fault => some ("unable to read " ++ name ++ ": " ++ fault.message)
  | .unusableConfig _ fault | .config fault => some fault.message
  | .unknownFrontEnd name =>
    some ("unknown parser front end " ++ name ++ "; choices: " ++ FrontEnd.names)
  | .rejected _ e => e.message?

end Wdl
