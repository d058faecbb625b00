import Wdl.Text.Quoted
import Wdl.Text.Utf8

/-!
# Wdl.Config.Fault -- what can be wrong with a configuration

A fault says which rule a configuration breaks and where. `Fault.message` is its only wording.
-/

namespace Wdl.Config

/-- Where the value of an option comes from. -/
inductive Origin where
  | overrides
  | variable (name : String)
  | file (name : String)
  | packaged
deriving DecidableEq, Repr

/-- How an origin is called. -/
def Origin.text : Origin → String
  | .overrides => "overrides"
  | .variable name => "environment variable " ++ name
  | .file name => name
  | .packaged => "default configuration"

/-- The rules that a configuration can break. -/
inductive Fault where
  /-- The value of an option is not what is expected there. -/
  | unusable (sec key expected value : String) (origin : Option Origin)
  /-- No layer has the section. -/
  | missingSection (sec : String)
  /-- No layer has the option, although one has its section. -/
  | missingOption (sec key : String)
  /-- An option is read from a section that its layer does not have. -/
  | unknownSection (sec : String)
  /-- A line of a file stands before all sections. -/
  | noHeader (file : String) (number : Nat) (line : String)
  /-- Lines of a file set no option. -/
  | badLines (file : String) (lines : List (Nat × String))
  /-- A file has two sections of one name. -/
  | repeatedSection (file : String) (number : Nat) (sec : String)
  /-- A section of a file has two options of one name. -/
  | repeatedOption (file : String) (number : Nat) (sec key : String)
  /-- Two overrides in one section are of one name. -/
  | repeatedOverride (sec key : String)
  /-- A reference in a value is not closed. -/
  | openReference (rest : String)
  /-- A percent sign in a value is neither doubled nor part of a reference. -/
  | strayPercent (rest : String)
  /-- A reference in a value names no option. -/
  | missingReference (sec key name raw : String)
  /-- References lead to more references too often. -/
  | tooDeep (sec key raw : String)
  /-- An override has a percent sign that is neither doubled nor part of a reference. -/
  | badPercent (value : String) (position : Nat)
  /-- The overrides of a section are no mapping. -/
  | noMapping (type : String)
  /-- Overrides cannot be logged, because of the name of a section. -/
  | unloggable (sec reason : String)
  /-- It is not known where the home directory is. -/
  | noHome
  /-- A file is not text. -/
  | undecodable (fault : Utf8.Fault)
deriving DecidableEq, Repr

/-- How often references may lead to more references. -/
def maxDepth : Nat := 10

/-- A line number, at least two characters wide. -/
def lineNumber (n : Nat) : String := if n < 10 then " " ++ toString n else toString n

/-- A line of a file, in brackets. -/
def atLine (n : Nat) : String := "[line " ++ lineNumber n ++ "]"

namespace Fault

/-- The wording of an option that occurs twice. -/
def repeatedText (place sec key : String) : String :=
  "While reading from " ++ place ++ ": option " ++ quoted key ++ " in section " ++ quoted sec
    ++ " already exists"

/-- The wording of a fault. -/
def message : Fault → String
  | .unusable sec key expected value origin =>
    "configuration option [" ++ sec ++ "] " ++ key ++ " should be " ++ expected ++ ", not "
      ++ quoted value ++ (match origin with
        | some o => " (from " ++ o.text ++ ")"
        | none => "")
  | .missingSection sec => "missing config section [" ++ sec ++ "]"
  | .missingOption sec key => "missing config option [" ++ sec ++ "] " ++ key
  | .unknownSection sec => "No section: " ++ quoted sec
  | .noHeader file number line =>
    "File contains no section headers.\nfile: " ++ quoted file ++ ", line: " ++ toString number
      ++ "\n" ++ quoted line
  | .badLines file lines =>
    "Source contains parsing errors: " ++ quoted file
      ++ String.join (lines.map fun l => "\n\t" ++ atLine l.1 ++ ": " ++ quoted l.2)
  | .repeatedSection file number sec =>
    "While reading from " ++ quoted file ++ " " ++ atLine number ++ ": section " ++ quoted sec
      ++ " already exists"
  | .repeatedOption file number sec key =>
    repeatedText (quoted file ++ " " ++ atLine number) sec key
  | .repeatedOverride sec key => repeatedText "'<dict>'" sec key
  | .openReference rest => "bad interpolation variable reference " ++ quoted rest
  | .strayPercent rest => "'%' must be followed by '%' or '(', found: " ++ quoted rest
  | .missingReference sec key name raw =>
    "Bad value substitution: option " ++ quoted key ++ " in section " ++ quoted sec
      ++ " contains an interpolation key " ++ quoted name
      ++ " which is not a valid option name. Raw value: " ++ quoted raw
  | .tooDeep sec key raw =>
    "Recursion limit exceeded in value substitution: option " ++ quoted key ++ " in section "
      ++ quoted sec ++ " contains an interpolation key which cannot be substituted in "
      ++ toString maxDepth ++ " steps. Raw value: " ++ quoted raw
  | .badPercent value position =>
    "invalid interpolation syntax in " ++ quoted value ++ " at position " ++ toString position
  | .noMapping type => "'" ++ type ++ "' object has no attribute 'items'"
  | .unloggable _ reason => reason
  | .noHome => "Could not determine home directory."
  | .undecodable fault => fault.message

end Fault

end Wdl.Config
