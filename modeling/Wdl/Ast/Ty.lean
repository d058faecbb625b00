import Wdl.Text.Range

/-!
# Wdl.Ast.Ty -- types

A type is an atom, a reference to a struct by name, or built from other types. `Ty.render` writes it
the way a declaration does.
-/

namespace Wdl

/-- The types that are built in and take no parameters. -/
inductive Atom where
  | boolean | int | float | string | file | directory | object
deriving DecidableEq, Repr, Inhabited

namespace Atom

/-- All atoms. -/
def all : List Atom := [.boolean, .int, .float, .string, .file, .directory, .object]

/-- The name of an atom. -/
def name : Atom → String
  | .boolean => "Boolean"
  | .int => "Int"
  | .float => "Float"
  | .string => "String"
  | .file => "File"
  | .directory => "Directory"
  | .object => "Object"

/-- The atom of a name. -/
def ofName? (s : String) : Option Atom := all.find? fun a => a.name == s

theorem ofName?_name (a : Atom) : ofName? a.name = some a := by cases a <;> decide

end Atom

/-- A type. -/
inductive Ty where
  /-- A type that is built in. -/
  | atom (range : Range) (kind : Atom)
  /-- A struct, by its name. -/
  | struct (range : Range) (name : String)
  /-- A type whose value may be absent. -/
  | optional (range : Range) (inner : Ty)
  /-- Arrays, perhaps only those with an item. -/
  | array (range : Range) (item : Ty) (nonempty : Bool)
  /-- Maps. -/
  | map (range : Range) (key value : Ty)
  /-- Pairs. -/
  | pair (range : Range) (left right : Ty)
deriving DecidableEq, Repr, Inhabited

namespace Ty

/-- Where a type is written. -/
def range : Ty → Range
  | .atom r _ | .struct r _ | .optional r _ | .array r _ _ | .map r _ _ | .pair r _ _ => r

/-- The types that a type is built from. -/
def parameters : Ty → List Ty
  | .atom _ _ | .struct _ _ => []
  | .optional _ inner => [inner]
  | .array _ item _ => [item]
  | .map _ key value => [key, value]
  | .pair _ left right => [left, right]

/-- The value of the type may be absent. -/
def isOptional : Ty → Bool
  | .optional _ _ => true
  | _ => false

/-- The text of a type. -/
def render : Ty → String
  | .atom _ kind => kind.name
  | .struct _ name => name
  | .optional _ inner => inner.render ++ "?"
  | .array _ item nonempty => "Array[" ++ item.render ++ "]" ++ (if nonempty then "+" else "")
  | .map _ key value => "Map[" ++ key.render ++ "," ++ value.render ++ "]"
  | .pair _ left right => "Pair[" ++ left.render ++ "," ++ right.render ++ "]"

end Ty

end Wdl
