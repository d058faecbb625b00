import Wdl.Ast.Document
import Wdl.Datum

/-!
# Wdl.Ast.Plain -- meta values and texts as plain data

A meta value says where it is written; `Meta.plain` is the value alone, as plain data. Plain data
knows characters only, and so do the readers that it is printed for: a `Text` becomes the string
that shows it, `Text.shown`, in which a surrogate is the replacement character. The coercions here
do so wherever a text, or entries with texts, are put among plain data. Nothing that parses,
compares or renders goes through them.
-/

namespace Wdl

instance : Coe Text String := ⟨Text.shown⟩

instance : Coe Text (List Char) := ⟨Text.chars⟩

instance {α : Type} : Coe (List (Text × α)) (List (String × α)) :=
  ⟨List.map fun entry => (entry.1.shown, entry.2)⟩

instance : Coe (List (String × Text)) (List (String × String)) :=
  ⟨List.map fun entry => (entry.1, entry.2.shown)⟩

mutual

/-- The plain data of a meta value. -/
def Meta.plain : Meta → Datum
  | .null _ => .null
  | .boolean _ value => .boolean value
  | .int _ value _ => .int value
  | .float _ value => .float value
  | .string _ value => .text value
  | .array _ items => .list (plainItems items)
  | .object _ members => .object (plainMembers members)

/-- The plain data of the items of an array. -/
def plainItems : List Meta → List Datum
  | [] => []
  | m :: rest => m.plain :: plainItems rest

/-- The plain data of the members of an object. -/
def plainMembers : List (String × Meta) → List (String × Datum)
  | [] => []
  | (key, m) :: rest => (key, m.plain) :: plainMembers rest

end

end Wdl
