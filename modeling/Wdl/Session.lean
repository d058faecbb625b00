import Wdl.Request

/-!
# Wdl.Session -- requests without a configuration of their own

A session loads its configuration when it is first needed and keeps it if that succeeds. Files are
read before the configuration is looked at.
-/

namespace Wdl

/-- The configuration that a session has loaded, if it has. -/
structure Session where
  config : Option Config
deriving DecidableEq, Repr

namespace Session

/-- The session that has loaded nothing. -/
def start : Session := ⟨none⟩

/-- The configuration of a session, which is loaded for the text of a name if need be. -/
def configFor (s : Surroundings) (name : String) (session : Session) :
    Session × Log × Except Failure Config :=
  match session.config with
  | some c => (session, [], .ok c)
  | none =>
    match Config.load s none [] with
    | (log, .ok c) => (⟨some c⟩, log, .ok c)
    | (log, .error (.unusable sec key expected value origin)) =>
      (session, log, .error (.unusableConfig name (.unusable sec key expected value origin)))
    | (log, .error fault) => (session, log, .error (.config fault))

/-- Parses a request in a session. -/
def parse (s : Surroundings) (r : Request) (session : Session) (names : CharacterNames := .none) :
    Session × Outcome :=
  match session.configFor s r.source.uri with
  | (session, log, .error failure) => (session, log, .error failure)
  | (session, log, .ok c) =>
    let (more, result) := r.parse s.environment c names
    (session, log ++ more, result)

/-- The text of a file. -/
def readText (s : Surroundings) (name : String) : Except Failure String := do
  let bytes ← (s.files.read name).mapError (.absent name)
  (Utf8.toText bytes).mapError (.undecodable name)

/-- Parses a file in a session. -/
def parseFile (s : Surroundings) (name : String) (frontEnd : Option String) (session : Session)
    (names : CharacterNames := .none) : Session × Outcome :=
  match readText s name with
  | .error failure => (session, [], .error failure)
  | .ok text =>
    let source := SourceText.ofString text name (Path.absolute s.files.startPath name)
    session.parse s ⟨.document, source, frontEnd⟩ names

end Session

end Wdl
