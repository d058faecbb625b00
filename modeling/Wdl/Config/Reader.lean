import Wdl.Config.Layer
import Wdl.Path
import Wdl.Text.Blank

/-!
# Wdl.Config.Reader -- layers from text

A configuration file has a header in brackets for each section, and below it a line for each
option, with a name, a mark and a value. Lines that are indented deeper than the line of an option
continue its value; lines that start with a comment mark are left out. Most faults stop reading at
their line; lines that set no option are all reported together at the end.
-/

namespace Wdl.Config

/-- Options that are being read: their names with the lines of their values. -/
abbrev DraftOptions := List (String × List String)

/-- What has been read of a layer. -/
structure Draft where
  shared : DraftOptions
  sections : List (String × DraftOptions)
  /-- The section that is being read. -/
  current : Option String
  /-- The option whose value may be continued. -/
  option : Option String
  /-- The indentation of the last line that continued no value. -/
  depth : Nat
  /-- The lines that set no option, by number. -/
  bad : List (Nat × String)
deriving Repr

namespace Draft

/-- Nothing has been read. -/
def start : Draft := ⟨[], [], none, none, 0, []⟩

/-! ## Kinds of lines -/

/-- A line without the space around it starts a comment. -/
def isComment : List Char → Bool
  | c :: _ => c == '#' || c == ';'
  | [] => false

/-- The name in a header: what stands between the bracket at the start of a line and the last
closing one. -/
def header? : List Char → Option String
  | '[' :: rest =>
    match (rest.reverse.dropWhile (· ≠ ']')).tail.reverse with
    | [] => none
    | name => some (String.ofList name)
  | _ => none

/-- A mark between the name of an option and its value. -/
def isMark (c : Char) : Bool := c == '=' || c == ':'

/-- The name of an option and its value, cut at the first mark. -/
def option? (line : List Char) : Option (String × String) :=
  let name := line.takeWhile fun c => !isMark c
  match line.drop name.length with
  | _ :: value => some (String.ofList (trimEnd name), String.ofList (trim value))
  | [] => none

/-! ## Reading lines -/

/-- The options of a section. -/
def optionsOf (d : Draft) (sec : String) : DraftOptions :=
  if sec = Layer.sharedName then d.shared else (d.sections.lookup sec).getD []

/-- Changes the options of a section. -/
def mapOptions (sec : String) (f : DraftOptions → DraftOptions) (d : Draft) : Draft :=
  if sec = Layer.sharedName then { d with shared := f d.shared }
  else { d with sections := d.sections.map fun s => if s.1 = sec then (s.1, f s.2) else s }

/-- Adds a line to the value that may be continued. -/
def continueValue (line : String) (d : Draft) : Draft :=
  match d.current, d.option with
  | some sec, some key =>
    d.mapOptions sec fun options =>
      options.map fun o => if o.1 = key then (o.1, o.2 ++ [line]) else o
  | _, _ => d

/-- Starts a section. -/
def openSection (file : String) (number : Nat) (sec : String) (d : Draft) : Except Fault Draft :=
  if d.sections.any (·.1 == sec) then .error (.repeatedSection file number sec)
  else
    let sections := if sec = Layer.sharedName then d.sections else d.sections ++ [(sec, [])]
    .ok { d with sections, current := some sec, option := none }

/-- Reads the line of an option in a section. -/
def setOption (file : String) (number : Nat) (sec line : String) (d : Draft) :
    Except Fault Draft :=
  match option? (trim line.toList) with
  | none => .ok { d with bad := d.bad ++ [(number, line)] }
  | some (name, value) =>
    let d := if name = "" then { d with bad := d.bad ++ [(number, line)] } else d
    let key := LetterCase.small name
    if (d.optionsOf sec).any (·.1 == key) then .error (.repeatedOption file number sec key)
    else
      .ok { d.mapOptions sec (· ++ [(key, [value])]) with
        option := if key = "" then none else some key }

/-- Reads a line. -/
def readLine (file : String) (number : Nat) (line : String) (d : Draft) : Except Fault Draft :=
  let chars := line.toList
  let content := trim chars
  if isComment content then .ok d
  else if content.isEmpty then .ok (d.continueValue "")
  else
    let depth := (chars.takeWhile isBlank).length
    if d.current.isSome ∧ d.option.isSome ∧ d.depth < depth then
      .ok (d.continueValue (String.ofList content))
    else
      let d := { d with depth }
      match header? content, d.current with
      | some sec, _ => d.openSection file number sec
      | none, none => .error (.noHeader file number line)
      | none, some sec => d.setOption file number sec line

/-- Reads lines of which the first has a number. -/
def readLines (file : String) : Nat → List String → Draft → Except Fault Draft
  | _, [], d => .ok d
  | number, line :: rest, d => do readLines file (number + 1) rest (← d.readLine file number line)

/-- The value of some lines. -/
def joinValue (lines : List String) : String :=
  String.ofList (trimEnd ("\n".intercalate lines).toList)

/-- The options that were read. -/
def finishOptions (options : DraftOptions) : Options := options.map fun o => (o.1, joinValue o.2)

/-- The layer that was read. -/
def finish (file : String) (d : Draft) : Except Fault Layer :=
  if d.bad.isEmpty then
    .ok ⟨finishOptions d.shared, d.sections.map fun s => (s.1, finishOptions s.2)⟩
  else .error (.badLines file d.bad)

end Draft

namespace Layer

/-! ## Files -/

/-- The text with a line feed for every way to end a line. -/
def plainLineEnds : List Char → List Char
  | '\r' :: '\n' :: rest => '\n' :: plainLineEnds rest
  | '\r' :: rest => '\n' :: plainLineEnds rest
  | c :: rest => c :: plainLineEnds rest
  | [] => []

/-- The lines of a text, each with its line feed, and what comes after the last line feed. -/
def linesOf (cs : List Char) : List String × String :=
  let pieces := Path.cut '\n' cs
  (pieces.dropLast.map fun piece => String.ofList (piece ++ ['\n']),
    String.ofList (pieces.getLast?.getD []))

/-- Reads a file. One that is cut off within a character is read up to its last whole line first;
the bytes of that character are all that is left to report then. -/
def ofBytes (file : String) (bytes : List UInt8) : Except Fault Layer := do
  let d := Utf8.decode bytes
  let (lines, last) := linesOf (plainLineEnds d.chars)
  match d.fault? with
  | none =>
    let lines := if last = "" then lines else lines ++ [last]
    (← Draft.start.readLines file 1 lines).finish file
  | some fault =>
    if fault.flaw = .cutOff then
      let _ ← Draft.start.readLines file 1 lines
      throw (.undecodable { fault with position := 0 })
    else throw (.undecodable fault)

end Layer

end Wdl.Config
