import Wdl.Path

/-!
# Wdl.Files -- a tree of files

A tree of files is a list of files with their contents, by the steps to them from the root, and a
directory in which relative paths start. The directories are those that lead to it and to the
files.
-/

namespace Wdl

/-- A tree of files. -/
structure Files where
  /-- The steps to the directory in which relative paths start. -/
  start : List String
  /-- The files; the first one of a name counts. -/
  entries : List (List String × List UInt8)
deriving Repr

/-- Why there is no file. -/
inductive Absence where
  | noEntry | notDirectory | isDirectory
  /-- A name, or the path as a whole, has more bytes than any file's. -/
  | tooLong
  /-- The path has a character that no name of a file has. -/
  | nullCharacter
deriving DecidableEq, Repr

/-- The wording and number of an absence. -/
def Absence.text : Absence → String
  | .noEntry => "[Errno 2] No such file or directory"
  | .notDirectory => "[Errno 20] Not a directory"
  | .isDirectory => "[Errno 21] Is a directory"
  | .tooLong => "[Errno 36] File name too long"
  | .nullCharacter => "embedded null byte"

namespace Files

/-- The directory in which relative paths start. -/
def startPath (f : Files) : String := "/" ++ "/".intercalate f.start

/-- There is a directory at the place. -/
def isDirectory (f : Files) (place : List String) : Bool :=
  place.isPrefixOf f.start
    || f.entries.any fun entry => place.isPrefixOf entry.1 && place.length < entry.1.length

/-- The content of the file at a place. -/
def content? (f : Files) (place : List String) : Option (List UInt8) := f.entries.lookup place

/-- The greatest number of bytes in the name of a file. -/
def maxName : Nat := 255

/-- The greatest number of bytes in a path. -/
def maxPath : Nat := 4095

/-- Follows the steps of a path from a directory to a file. -/
def follow (f : Files) (place : List String) : List String → Except Absence (List UInt8)
  | [] => .error .isDirectory
  | step :: rest =>
    if step = "" ∨ step = Path.here then follow f place rest
    else if step = Path.back then follow f place.dropLast rest
    else if maxName < step.utf8ByteSize then .error .tooLong
    else
      let next := place ++ [step]
      if f.isDirectory next then follow f next rest
      else
        match f.content? next with
        | none => .error .noEntry
        | some bytes => if rest.isEmpty then .ok bytes else .error .notDirectory

/-- Reads the file of a path. -/
def read (f : Files) (path : String) : Except Absence (List UInt8) :=
  if path = "" then .error .noEntry
  else if path.toList.contains '\x00' then .error .nullCharacter
  else if maxPath < path.utf8ByteSize then .error .tooLong
  else f.follow (if Path.isAbsolute path then [] else f.start) (Path.steps path)

/-- There is a file of the path. -/
def isFile (f : Files) (path : String) : Bool :=
  match f.read path with
  | .ok _ => true
  | .error _ => false

/-- Writes the file of a path. -/
def write (f : Files) (path : String) (bytes : List UInt8) : Files :=
  let place := Path.walk (if Path.isAbsolute path then [] else f.start) (Path.realSteps path)
  { f with entries := (place, bytes) :: f.entries }

/-- No files but a directory. -/
def empty (start : String) : Files := ⟨Path.realSteps start, []⟩

end Files

end Wdl
