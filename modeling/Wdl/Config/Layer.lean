import Wdl.Config.Fault
import Wdl.Text.LetterCase

/-!
# Wdl.Config.Layer -- sections of options

A layer is what one source says about the configuration: options by section, and shared options
that every one of its sections has. Values may refer to other options of their section; `expand`
puts the values of these in. Names of options are in small letters, names of sections are as they
are.
-/

namespace Wdl.Config

/-- Options with their values. -/
abbrev Options := List (String × String)

/-- Sections with their options. -/
structure Layer where
  shared : Options
  sections : List (String × Options)
deriving DecidableEq, Repr

namespace Layer

/-- The layer that says nothing. -/
def empty : Layer := ⟨[], []⟩

instance : Inhabited Layer := ⟨empty⟩

/-- The name under which the shared options are written. -/
def sharedName : String := "DEFAULT"

/-- A name under which the shared options are found. -/
def isShared (sec : String) : Bool := sec == sharedName || sec == ""

/-- The layer has a section. Shared options are none. -/
def hasSection (l : Layer) (sec : String) : Bool := l.sections.any (·.1 == sec)

/-- The options have one of the name. -/
def hasKey (options : Options) (key : String) : Bool := options.any (·.1 == key)

/-- The layer has an option. -/
def hasOption (l : Layer) (sec key : String) : Bool :=
  if isShared sec then hasKey l.shared key
  else
    match l.sections.lookup sec with
    | none => false
    | some options => hasKey options key || hasKey l.shared key

/-- The options that a value in a section can refer to: those of the section go first. -/
def visible? (l : Layer) (sec : String) : Option Options :=
  match l.sections.lookup sec with
  | some options => some (options ++ l.shared)
  | none => if sec = sharedName then some l.shared else none

/-! ## References -/

/-- Reads a reference after its percent sign: its name and the rest. -/
def reference? : List Char → Option (List Char × List Char)
  | '(' :: rest =>
    let name := rest.takeWhile (· ≠ ')')
    match name, rest.drop name.length with
    | _ :: _, ')' :: 's' :: after => some (name, after)
    | _, _ => none
  | _ => none

theorem length_of_reference? {cs name after : List Char} (h : reference? cs = some (name, after)) :
    after.length < cs.length := by
  unfold reference? at h
  split at h
  · rename_i rest
    dsimp only at h
    split at h
    · rename_i heq
      cases h
      have := congrArg List.length heq
      simp only [List.length_drop, List.length_cons] at this ⊢
      omega
    · cases h
  · cases h

/-- The option whose value is being expanded, for reports. -/
structure Target where
  sec : String
  key : String
  raw : String

/-- Replaces doubled percent signs and references in a value. References may lead to more of them
`depth` times. -/
def expand (options : Options) (target : Target) : Nat → List Char → Except Fault (List Char)
  | 0, _ => .error (.tooDeep target.sec target.key target.raw)
  | _ + 1, [] => .ok []
  | depth + 1, c :: rest =>
    if c ≠ '%' then do return c :: (← expand options target (depth + 1) rest)
    else
      match rest with
      | '%' :: after => do return '%' :: (← expand options target (depth + 1) after)
      | '(' :: more =>
        match h : reference? ('(' :: more) with
        | none => .error (.openReference (String.ofList (c :: rest)))
        | some (name, after) =>
          have := length_of_reference? h
          let name := LetterCase.small (String.ofList name)
          match options.lookup name with
          | none => .error (.missingReference target.sec target.key name target.raw)
          | some value => do
            let inner ←
              if value.toList.contains '%' then expand options target depth value.toList
              else .ok value.toList
            return inner ++ (← expand options target (depth + 1) after)
      | _ => .error (.strayPercent (String.ofList (c :: rest)))
termination_by depth cs => (depth, cs.length)
decreasing_by
  · exact .right _ (by simp only [List.length_cons]; omega)
  · exact .right _ (by simp only [List.length_cons]; omega)
  · exact .right _ (by simp only [List.length_cons] at *; omega)
  · exact .left _ _ (by omega)

/-- The value of an option that the layer has. -/
def get (l : Layer) (sec key : String) : Except Fault String :=
  match l.visible? sec with
  | none => .error (.unknownSection sec)
  | some options =>
    match options.lookup key with
    | none => .error (.missingOption sec key)
    | some raw => do
      return String.ofList (← expand options ⟨sec, key, raw⟩ maxDepth raw.toList)

/-! ## Filling a layer -/

/-- Removes doubled percent signs. -/
def dropDoubled : List Char → List Char
  | '%' :: '%' :: rest => dropDoubled rest
  | c :: rest => c :: dropDoubled rest
  | [] => []

/-- Removes references. -/
def dropReferences : List Char → List Char
  | [] => []
  | c :: rest =>
    if c = '%' then
      match h : reference? rest with
      | some (_, after) =>
        have := length_of_reference? h
        dropReferences after
      | none => c :: dropReferences rest
    else c :: dropReferences rest
termination_by cs => cs.length

/-- Checks that the percent signs of a value are doubled or part of references. -/
def checkPercents (value : String) : Except Fault Unit :=
  match (dropReferences (dropDoubled value.toList)).findIdx? (· == '%') with
  | some position => .error (.badPercent value position)
  | none => .ok ()

/-- Sets an option; a new one goes behind the others. -/
def setKey (key value : String) : Options → Options
  | [] => [(key, value)]
  | (k, v) :: rest => if k = key then (k, value) :: rest else (k, v) :: setKey key value rest

/-- Changes the options of a section. -/
def mapSection (sec : String) (f : Options → Options) (l : Layer) : Layer :=
  if isShared sec then { l with shared := f l.shared }
  else { l with sections := l.sections.map fun s => if s.1 = sec then (s.1, f s.2) else s }

/-- Adds a section unless it is there. -/
def addSection (sec : String) (l : Layer) : Layer :=
  if sec = sharedName ∨ l.hasSection sec then l
  else { l with sections := l.sections ++ [(sec, [])] }

/-- Changes to a layer, of which the first fault stops the rest but not what was done before. -/
abbrev Filling := ExceptT Fault (StateM Layer)

/-- Sets options of a section, of which those in `seen` are set already. Values are looked at when
their turn comes. -/
def fillOptions (sec : String) :
    List String → List (String × Except Fault String) → Filling Unit
  | _, [] => pure ()
  | seen, (key, value) :: rest => do
    let value ← value
    let key := LetterCase.small key
    if seen.contains key then throw (.repeatedOverride sec key)
    checkPercents value
    modify (mapSection sec (setKey key value))
    fillOptions sec (key :: seen) rest

/-- Fills in sections, one after the other. -/
def fill : List (String × List (String × Except Fault String)) → Filling Unit
  | [] => pure ()
  | (sec, options) :: rest => do
    modify (addSection sec)
    fillOptions sec [] options
    fill rest

/-- The keys of a section, its own first, then the shared ones it does not have itself. -/
def keysOf (l : Layer) (options : Options) : List String :=
  options.map (·.1) ++ (l.shared.map (·.1)).filter fun key => !hasKey options key

/-- What a layer says, with references replaced: the shared options, then every section with all
its options. -/
def spelledOut (l : Layer) : List (String × List (String × Except Fault String)) :=
  (sharedName, l.shared.map fun o => (o.1, l.get sharedName o.1))
    :: l.sections.map fun s => (s.1, (l.keysOf s.2).map fun key => (key, l.get s.1 key))

end Layer

end Wdl.Config
