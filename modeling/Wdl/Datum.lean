import Wdl.Number.Decimal
import Wdl.Text.Quoted

/-!
# Wdl.Datum -- plain data

The values that options and log messages carry: those of JSON, with integers and floating-point
numbers apart and the members of an object in order. `toJson` writes a value for JSON readers,
`display` for people.
-/

namespace Wdl

/-- A plain value. -/
inductive Datum where
  | null
  | boolean (value : Bool)
  | int (value : Int)
  | float (value : Binary64)
  | text (value : String)
  | list (items : List Datum)
  | object (members : List (String × Datum))

instance : Inhabited Datum := ⟨.null⟩

namespace Datum

/-- The text of a floating-point number in JSON. -/
def jsonFloat (x : Binary64) : String :=
  if x.isInfinite then (if x.negative then "-Infinity" else "Infinity") else x.toText

mutual

/-- A value in JSON. -/
def toJson : Datum → String
  | .null => "null"
  | .boolean value => if value then "true" else "false"
  | .int value => toString value
  | .float value => jsonFloat value
  | .text value => jsonString value
  | .list items => "[" ++ ", ".intercalate (itemsJson items) ++ "]"
  | .object members => "\x7b" ++ ", ".intercalate (membersJson members) ++ "\x7d"

/-- The items of a list in JSON. -/
def itemsJson : List Datum → List String
  | [] => []
  | x :: rest => x.toJson :: itemsJson rest

/-- The members of an object in JSON. -/
def membersJson : List (String × Datum) → List String
  | [] => []
  | (key, x) :: rest => (jsonString key ++ ": " ++ x.toJson) :: membersJson rest

end

mutual

/-- A value inside another one, for people. -/
def inner : Datum → String
  | .null => "None"
  | .boolean value => if value then "True" else "False"
  | .int value => toString value
  | .float value => value.toText
  | .text value => quoted value
  | .list items => "[" ++ ", ".intercalate (innerItems items) ++ "]"
  | .object members => "\x7b" ++ ", ".intercalate (innerMembers members) ++ "\x7d"

/-- The items of a list, for people. -/
def innerItems : List Datum → List String
  | [] => []
  | x :: rest => x.inner :: innerItems rest

/-- The members of an object, for people. -/
def innerMembers : List (String × Datum) → List String
  | [] => []
  | (key, x) :: rest => (quoted key ++ ": " ++ x.inner) :: innerMembers rest

end

/-- A value for people. A text of its own has no marks. -/
def display : Datum → String
  | .text value => value
  | x => x.inner

end Datum

end Wdl
