import Wdl.Proofs.Overriding

/-!
# Wdl.Proofs.Candidates -- which configuration file is read

Without names of files, and without the variable that names them, a configuration file is looked for
in the user's directory and in the system's directories. The first file that there is on the way is
the one that is read, and it is the only one.

* `paths?_eq` is the way: the user's directory first and then the system's directories from the last
  one to the first.
* `found?` is the file that is found on it. Of several files in the system's directories it is the
  least preferred one that is read; `found?_eq_preferred?` says when it is the one that should have
  been, `preferred?`.
* `HasRead` says what it is for a load to have read a file or none, of what is logged as well as of
  the configuration. `load_searched` is the result about loading. No file is read only if none of
  the directories has one (`found?_eq_none`).
-/

namespace Wdl.Config

namespace Search

/-- The configuration file in the user's directory. -/
def userFile (vars : Variables) (home : String) : String :=
  Path.inside (userDirectory vars home) fileName

/-- The configuration files in the system's directories, the most preferred one first. -/
def systemFiles (vars : Variables) : List String :=
  (systemDirectories vars).map fun d => Path.inside d fileName

/-- The file of the highest preference that there is. -/
def preferred? (files : Files) (vars : Variables) (home : String) : Option String :=
  (userFile vars home :: systemFiles vars).find? files.isFile

/-- The file that is found: the user's if there is one, otherwise the last one that there is of the
system's. -/
def found? (files : Files) (vars : Variables) (home : String) : Option String :=
  if files.isFile (userFile vars home) then some (userFile vars home)
  else ((systemFiles vars).filter files.isFile).getLast?

variable {vars : Variables} {home : String}

/-- The paths that are searched are all candidates, the system's in reverse. -/
theorem paths?_eq (unset : vars.lookup fileVariable = none)
    (known : homeDirectory? vars = some home) :
    paths? vars = some (userFile vars home :: (systemFiles vars).reverse) := by
  rw [paths?, unset, known]
  simp only [Option.map_some, directories, List.map_cons, List.map_reverse, userFile, systemFiles]

/-- The first path on the way at which there is a file. -/
theorem find?_paths (files : Files) (vars : Variables) (home : String) :
    (userFile vars home :: (systemFiles vars).reverse).find? files.isFile =
      found? files vars home := by
  rw [found?, List.find?_cons]
  split
  · rename_i user
    rw [if_pos user]
  · rename_i user
    rw [if_neg (by rw [user]; decide), ← List.head?_filter, List.filter_reverse,
      List.head?_reverse]

/-- No file is found if and only if no directory has one. -/
theorem found?_eq_none (files : Files) (vars : Variables) (home : String) :
    found? files vars home = none ↔
      ∀ path ∈ userFile vars home :: systemFiles vars, files.isFile path = false := by
  rw [← find?_paths, List.find?_eq_none]
  simp only [List.mem_cons, List.mem_reverse, Bool.not_eq_true]

/-- The file that is found is the preferred one if and only if the user has one, or the first and
the last file in the system's directories are the same. -/
theorem found?_eq_preferred? (files : Files) (vars : Variables) (home : String) :
    found? files vars home = preferred? files vars home ↔
      files.isFile (userFile vars home) = true ∨
        ((systemFiles vars).filter files.isFile).getLast? =
          ((systemFiles vars).filter files.isFile).head? := by
  rw [found?, preferred?, List.find?_cons, List.head?_filter]
  cases files.isFile (userFile vars home) <;> simp

/-- Two of the system's directories have a file, and it is the less preferred one that is found. -/
example : found? ⟨[], [(["a", fileName], []), (["b", fileName], [])]⟩
    [("XDG_CONFIG_HOME", "/h"), ("XDG_CONFIG_DIRS", "/a:/b")] "/" = some "/b/wdlast.cfg" := by
  decide +kernel

end Search

/-! ## Loading

A load logs what it has read before it settles the options, so that this is the first record of its
log whether or not the options are usable. -/

variable {s : Surroundings} {overrides : Overrides}

/-- Settling changes neither the file of a configuration nor its name. -/
theorem settle_keeps {vars : Variables} {base c : Config} {log : Log}
    (settled : settle vars base overrides = .ok (c, log)) :
    c.fileName = base.fileName ∧ c.file = base.file := by
  rcases settle_ok settled with rfl | rfl
  · exact ⟨rfl, rfl⟩
  · obtain ⟨layer, eq⟩ := override_layer base vars overrides
    rw [eq]
    exact ⟨rfl, rfl⟩

/-- What a load has read: one file or none. It is logged first, and the configuration, if one is
loaded, has its name and what it says. -/
def HasRead (s : Surroundings) (searched : List String) (load : Log × Except Fault Config) :
    Option String → Prop
  | some path => ∃ bytes, s.files.read path = .ok bytes ∧
      load.1.head? = some (Log.configRead path) ∧
        ∀ c, load.2 = .ok c → c.fileName = some path ∧ Layer.ofBytes path bytes = .ok c.file
  | none => load.1.head? = some (Log.configMissing searched) ∧
      ∀ c, load.2 = .ok c → c.fileName = none ∧ c.file = .empty

/-- The first of the names at which there is a file, with its content. -/
theorem findSome?_read (files : Files) (names : List String) :
    (names.findSome? fun name => (files.read name).toOption.map (name, ·)) =
      (names.find? files.isFile).bind fun name => (files.read name).toOption.map (name, ·) := by
  induction names with
  | nil => rfl
  | cons name names ih =>
    rw [List.findSome?_cons, List.find?_cons, Files.isFile]
    cases read : files.read name with
    | error absence => exact ih
    | ok bytes =>
      show some (name, bytes) = (files.read name).toOption.map (name, ·)
      rw [read]
      rfl

/-- Where there is a file, it can be read. -/
theorem read_of_isFile {files : Files} {path : String} (isFile : files.isFile path = true) :
    ∃ bytes, files.read path = .ok bytes := by
  unfold Files.isFile at isFile
  split at isFile
  · exact ⟨_, ‹_›⟩
  · cases isFile

/-- What follows once it is settled which file is read, if that file can be understood. -/
theorem settle_result (s : Surroundings) (overrides : Overrides) (record : LogRecord)
    (base : Except Fault Config) :
    let load : Log × Except Fault Config :=
      match base >>= fun c => settle s.environment c overrides with
      | .ok (c, log) => (record :: log, .ok c)
      | .error fault => ([record], .error fault)
    load.1.head? = some record ∧ ∀ c, load.2 = .ok c →
      ∃ b, base = .ok b ∧ c.fileName = b.fileName ∧ c.file = b.file := by
  cases base with
  | error fault => exact ⟨rfl, nofun⟩
  | ok b =>
    simp only [bind, Except.bind]
    cases settled : settle s.environment b overrides with
    | error fault => exact ⟨rfl, nofun⟩
    | ok result =>
      refine ⟨rfl, fun c loaded => ⟨b, rfl, ?_⟩⟩
      cases loaded
      exact settle_keeps settled

/-- Of the files with given names the first one that there is is read. -/
theorem loadFrom_reads (s : Surroundings) (names : List String) (overrides : Overrides) :
    HasRead s names (loadFrom s names overrides) (names.find? s.files.isFile) := by
  unfold loadFrom
  rw [findSome?_read]
  cases found : names.find? s.files.isFile with
  -- no file: the configuration is settled without one, and the names are logged
  | none =>
    obtain ⟨logged, loaded⟩ := settle_result s overrides (Log.configMissing names)
      (.ok ⟨.empty, .empty, none⟩)
    refine ⟨logged, fun c ok => ?_⟩
    obtain ⟨b, eq, name, file⟩ := loaded c ok
    cases eq
    exact ⟨name, file⟩
  -- a file: it may still be one that cannot be understood, and then no configuration is loaded
  | some path =>
    obtain ⟨bytes, read⟩ := read_of_isFile (List.find?_some found)
    have pair : ((some path).bind fun name => (s.files.read name).toOption.map (name, ·)) =
        some (path, bytes) := by
      show (s.files.read path).toOption.map (path, ·) = _
      rw [read]
      rfl
    rw [pair]
    obtain ⟨logged, loaded⟩ := settle_result s overrides (Log.configRead path)
      ((Layer.ofBytes path bytes).map fun file => ⟨.empty, file, some path⟩)
    refine ⟨bytes, read, logged, fun c ok => ?_⟩
    obtain ⟨b, eq, name, file⟩ := loaded c ok
    cases layer : Layer.ofBytes path bytes with
    | error fault =>
      rw [layer] at eq
      cases eq
    | ok content =>
      rw [layer] at eq
      cases eq
      exact ⟨name, file ▸ rfl⟩

/-- A configuration file that is searched for is the user's, or else the least preferred one of the
system's. -/
theorem load_searched {home : String} (unset : s.environment.lookup Search.fileVariable = none)
    (known : Search.homeDirectory? s.environment = some home) (overrides : Overrides) :
    HasRead s (Search.userFile s.environment home :: (Search.systemFiles s.environment).reverse)
      (load s none overrides) (Search.found? s.files s.environment home) := by
  rw [load, Search.paths?_eq unset known, ← Search.find?_paths]
  exact loadFrom_reads s _ overrides

end Wdl.Config
