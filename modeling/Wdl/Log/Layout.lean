import Wdl.Log

/-!
# Wdl.Log.Layout -- records as lines

A handler writes a record in one of three layouts: plain, colored for a terminal, or as JSON.
Handlers share the record they are given: what one of them leaves is what the next one writes. The
JSON layout leaves the message as the fields it wrote.
-/

namespace Wdl

/-- How records are written. -/
inductive Layout where
  | plain | colored | json
deriving DecidableEq, Repr, Inhabited

namespace Layout

/-! ## Colors -/

/-- The sequence of a terminal that sets a style. -/
def setStyle (style : String) : String := "\x1b[" ++ style ++ "m"

/-- A text in a style of a terminal. -/
def styled (style text : String) : String := setStyle style ++ text ++ setStyle "0"

/-- The style of the messages of a severity, if it has one. -/
def styleOf : Severity → Option String
  | .debug => some "38;5;242"
  | .info => none
  | .warning => some "1;33"
  | .error | .critical => some "1;31"

/-- A message in the style of its severity. -/
def styledMessage (severity : Severity) (text : String) : String :=
  match styleOf severity with
  | some style => styled style text
  | none => text

/-! ## Lines -/

/-- Adds fields behind others; a name that is already there keeps its value. -/
def addFields (fields : LogFields) (more : LogFields) : LogFields :=
  more.foldl (fun fields f => if fields.any (·.1 == f.1) then fields else fields ++ [f]) fields

/-- The fields that the JSON layout leaves of a message. -/
def messageFields (severity : Severity) : LogMessage → LogFields
  | .plain text => [("message", .text text)]
  | .structured text fields =>
    addFields [("level", .text severity.name), ("message", .text text)] fields
  | .members fields => fields

/-- The fields that a record has in the JSON layout, the text of the message first. Those that the
record itself gives win. -/
def jsonFields (time : Datum) (r : LogRecord) : LogFields :=
  let own := [("timestamp", time), ("source", .text r.source), ("level", .text r.severity.name),
    ("levelno", .int r.severity.number)]
  (messageFields r.severity r.message ++ own).foldl
    (fun fields f => Build.setEntry f.1 f.2 fields) [("message", .null)]

/-- The line that a layout writes for a record. The time is given as the layout shows it. -/
def line (time : Datum) (layout : Layout) (r : LogRecord) : String :=
  match layout with
  | .plain =>
    " ".intercalate [time.display, r.source, r.severity.name, r.message.render]
  | .colored =>
    " ".intercalate [styled "34" time.display, styled "35" r.source,
      styledMessage r.severity r.message.render]
  | .json => (Datum.object (jsonFields time r)).toJson

/-- The record as a handler of a layout leaves it. -/
def leave (layout : Layout) (r : LogRecord) : LogRecord :=
  match layout, r.message with
  | .json, .structured _ _ => { r with message := .members (messageFields r.severity r.message) }
  | _, _ => r

/-- The lines that handlers write for one record, each after the ones before it. -/
def lines (time : Datum) : List Layout → LogRecord → List String
  | [], _ => []
  | layout :: rest, r => line time layout r :: lines time rest (leave layout r)

end Layout

/-- Whether a handler with a threshold writes a record. -/
def LogRecord.reaches (threshold : Severity) (r : LogRecord) : Bool :=
  threshold.number ≤ r.severity.number

end Wdl
