import Wdl.Build.Document
import Wdl.Datum

/-!
# Wdl.Log -- what is logged

A record is a message of some severity from one of the program's sources. A message is a plain
text, or a text with fields, which are written after it.
-/

namespace Wdl

/-- How severe a record is. -/
inductive Severity where
  | debug | info | warning | error | critical
deriving DecidableEq, Repr, Inhabited

namespace Severity

/-- All severities, from the least to the greatest. -/
def all : List Severity := [.debug, .info, .warning, .error, .critical]

/-- The name of a severity. -/
def name : Severity → String
  | .debug => "DEBUG"
  | .info => "INFO"
  | .warning => "WARNING"
  | .error => "ERROR"
  | .critical => "CRITICAL"

/-- The number of a severity; a greater one is more severe. -/
def number : Severity → Nat
  | .debug => 10
  | .info => 20
  | .warning => 30
  | .error => 40
  | .critical => 50

/-- The severity of a name. -/
def ofName? (s : String) : Option Severity := all.find? fun l => l.name == s

theorem ofName?_name (l : Severity) : ofName? l.name = some l := by cases l <;> decide

end Severity

/-- Fields of a message, by name. -/
abbrev LogFields := List (String × Datum)

/-- A message. -/
inductive LogMessage where
  /-- A text. -/
  | plain (text : String)
  /-- A text with fields. -/
  | structured (text : String) (fields : LogFields)
  /-- Fields alone, the text being one of them. -/
  | members (fields : LogFields)

/-- The names that a field of a structured message cannot have, as they are those of the message and
its text. -/
def LogFields.ownNames : List String := ["self", "_message"]

/-- The first field whose name a structured message has for itself. -/
def LogFields.clash? (fields : LogFields) : Option String :=
  (fields.map (·.1)).find? LogFields.ownNames.contains

/-- The wording of such a clash. -/
def LogFields.clashMessage (name : String) : String :=
  "StructuredLogMessage.__init__() got multiple values for argument " ++ quoted name

/-- The text of a message. -/
def LogMessage.render : LogMessage → String
  | .plain text => text
  | .structured text fields =>
    text ++ " :: " ++ ", ".intercalate (fields.map fun f => f.1 ++ ": " ++ f.2.toJson)
  | .members fields => (Datum.object fields).display

/-- A record. -/
structure LogRecord where
  source : String
  severity : Severity
  message : LogMessage

/-- What was logged, in order. -/
abbrev Log := List LogRecord

/-! ## Sources and records of the program -/

namespace Log

/-- The source of the records about parses. Those of all other parts lie below it. -/
def parserSource : String := "wdlast"

/-- The source below the main one that has a name of its own; without a name it is the main one. -/
def sourceBelow (name : String) : String :=
  if name = "" then parserSource else parserSource ++ "." ++ name

/-- The source of the records about building. -/
def builderSource : String := sourceBelow "builder"

/-- The source of the records about configuration. -/
def configSource : String := sourceBelow "config"

/-- The text of a warning, and the field that only it has. -/
def warningText : Warning → String × LogFields
  | .repeatedRuntimeKey key _ =>
    ("duplicate key in runtime section; the last value is used", [("key", .text key)])
  | .mixedIndentation _ =>
    ("command's leading whitespace mixes tabs and spaces; indentation left as-is", [])

/-- Where a warning is. -/
def warningRange : Warning → Range
  | .repeatedRuntimeKey _ r | .mixedIndentation r => r

/-- The record of a warning about a source text. -/
def ofWarning (source : SourceText) (w : Warning) : LogRecord :=
  let (text, fields) := warningText w
  let span := source.span (warningRange w)
  { source := builderSource, severity := .warning
    message := .structured text
      (fields ++ [("uri", .text source.uri), ("line", .int span.line),
        ("column", .int span.column)]) }

/-- The record of a parse that succeeded; a document has a number of elements. -/
def ofParse (frontEnd uri start : String) (elements : Option Nat) : LogRecord :=
  { source := parserSource, severity := .debug
    message := .structured "parse"
      [("front_end", .text frontEnd), ("uri", .text uri), ("start", .text start),
       ("elements", (elements.map fun n => Datum.int n).getD .null)] }

/-- The record of reading a configuration file. -/
def configRead (path : String) : LogRecord :=
  { source := configSource, severity := .info
    message := .structured "read configuration file" [("path", .text path)] }

/-- The record of a search that found no configuration file. -/
def configMissing (searched : List String) : LogRecord :=
  { source := configSource, severity := .debug
    message := .structured "no configuration file found"
      [("searched", .list (searched.map .text))] }

/-- The record of overrides that took effect. -/
def overridden (overrides : LogFields) : LogRecord :=
  { source := configSource, severity := .debug
    message := .structured "applied configuration overrides" overrides }

end Log

end Wdl
