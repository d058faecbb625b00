import Wdl.Surroundings

/-!
# Wdl.Config.Search -- where a configuration file may be

The file can be named by a variable. Otherwise it lies in the user's directory for configuration or
in one of the system's. The user's directory goes first; the system's go from the least preferred
to the most preferred one. There is no search without a home directory.
-/

namespace Wdl.Config.Search

/-- The name of a configuration file. -/
def fileName : String := "wdlast.cfg"

/-- The variable that names configuration files. -/
def fileVariable : String := "WDLAST_CFG"

/-- The system's directories where no variable lists any. -/
def systemDefault : List String := ["/etc/xdg"]

/-- The home directory that a variable names; without a name it is the root. A name that starts
with a tilde stands for a directory that is not known. -/
def homeDirectory? (vars : Variables) : Option String :=
  let home := Path.withoutEnd ((vars.lookup "HOME").getD "")
  if home.startsWith "~" then none else some home

/-- The user's directory for configuration; one that is not absolute does not count. -/
def userDirectory (vars : Variables) (home : String) : String :=
  let byDefault := Path.inside home ".config"
  match vars.lookup "XDG_CONFIG_HOME" with
  | some d => if Path.isAbsolute d then Path.tidy d else byDefault
  | none => byDefault

/-- The system's directories for configuration, the most preferred one first; those that are not
absolute do not count. -/
def systemDirectories (vars : Variables) : List String :=
  match vars.lookup "XDG_CONFIG_DIRS" with
  | none => systemDefault
  | some list =>
    match (Path.pieces ':' list).filter Path.isAbsolute with
    | [] => systemDefault
    | ds => ds.map Path.tidy

/-- The directories in the order in which they are searched. -/
def directories (vars : Variables) (home : String) : List String :=
  userDirectory vars home :: (systemDirectories vars).reverse

/-- The paths at which a configuration file may be, in the order in which they are tried. There are
none if the home directory is needed and not known. -/
def paths? (vars : Variables) : Option (List String) :=
  match vars.lookup fileVariable with
  | some list => some (Path.pieces ':' list)
  | none =>
    (homeDirectory? vars).map fun home =>
      (directories vars home).map fun d => Path.inside d fileName

end Wdl.Config.Search
