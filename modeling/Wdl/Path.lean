/-!
# Wdl.Path -- names of files

A path is text with slashes. It is absolute if it starts with one. `tidy` removes what makes no
difference for any file system; `absolute` also goes back a step for every `..`.
-/

namespace Wdl.Path

/-- Cuts a text at every mark. There is always at least one piece. -/
def cut (mark : Char) : List Char → List (List Char)
  | [] => [[]]
  | c :: rest =>
    if c = mark then [] :: cut mark rest
    else
      match cut mark rest with
      | first :: more => (c :: first) :: more
      | [] => [[c]]

/-- The pieces of a string between marks. -/
def pieces (mark : Char) (s : String) : List String := (cut mark s.toList).map String.ofList

/-- The steps of a path, in order; a path may have empty ones. -/
def steps (path : String) : List String := pieces '/' path

/-- The step that stays where it is. -/
def here : String := "."

/-- The step that goes back. -/
def back : String := ".."

/-- A path from the root. -/
def isAbsolute (path : String) : Bool := path.toList.head? == some '/'

/-- The slashes that an absolute path keeps at its start: two stay two, any more are one. -/
def rootSlashes (path : String) : String :=
  match path.toList with
  | '/' :: '/' :: '/' :: _ => "/"
  | '/' :: '/' :: _ => "//"
  | '/' :: _ => "/"
  | _ => ""

/-- The steps of a path that go somewhere. -/
def realSteps (path : String) : List String :=
  (steps path).filter fun step => step ≠ "" ∧ step ≠ here

/-- The path without empty steps and steps that stay where they are. -/
def tidy (path : String) : String := rootSlashes path ++ "/".intercalate (realSteps path)

/-- The path of a directory without the slashes at its end; without any name it is the root. -/
def withoutEnd (directory : String) : String :=
  match (directory.toList.reverse.dropWhile (· = '/')).reverse with
  | [] => "/"
  | cs => String.ofList cs

/-- The path of a file in a directory. -/
def inside (directory name : String) : String :=
  let d := tidy directory
  if realSteps d = [] then d ++ name else d ++ "/" ++ name

/-- Takes steps from a place given by the steps to it from the root; at the root there is no way
back. -/
def walk (place : List String) : List String → List String
  | [] => place
  | step :: rest => walk (if step = back then place.dropLast else place ++ [step]) rest

/-- The absolute path of a path that starts in a directory. -/
def absolute (directory path : String) : String :=
  let whole := if isAbsolute path then path else directory ++ "/" ++ path
  rootSlashes whole ++ "/".intercalate (walk [] (realSteps whole))

end Wdl.Path
