import Wdl.Surface.Expr

/-!
# Wdl.Build.Violation -- what can be wrong with a text that parses

A violation is a rule of the language that the grammar does not express, broken at some range of
the text. Building stops at the first. `Violation.message` is its only wording.
-/

namespace Wdl

/-- The rules that a text can break although it parses. -/
inductive Violation where
  /-- A reserved word is used as a name. -/
  | reservedName (name : String)
  /-- An escape in literal text cannot be decoded. -/
  | badEscape
  /-- No namespace for an import follows from its URI, or it is reserved. -/
  | badNamespace
  /-- A placeholder option has an unknown name. -/
  | unknownOption (name : String)
  /-- A placeholder has two options of one name. -/
  | repeatedOption (name : String)
  /-- An integer literal is beyond the greatest integer. -/
  | intTooGreat (text : String)
  /-- A decimal integer literal has more digits than are ever read. -/
  | tooManyDigits (count : Nat)
  /-- An array type has no item type, or two. -/
  | arrayParameters
  /-- A type that is no array is marked nonempty. -/
  | badQuantifier (type : String)
  /-- A map or pair type does not have two parameters. -/
  | twoParameters (type : String)
  /-- A type without parameters is given some. -/
  | noParameters (type : String)
  /-- An output declaration has no initializer. -/
  | missingInitializer (name : String)
  /-- A meta object has two entries of one key. -/
  | repeatedKey (key : String)
  /-- A task or workflow has two sections of one kind. -/
  | repeatedSection (kind owner : String)
  /-- A struct has two members of one name. -/
  | repeatedMember (member struct : String)
  /-- An import gives two names to one struct. -/
  | repeatedAlias (name : String)
  /-- The document is in a version of the language that is not supported. -/
  | unsupportedVersion (identifier : String) (supported : List String)
  /-- There are two version statements. -/
  | secondVersion
  /-- The version statement does not come first. -/
  | lateVersion
  /-- There are two workflows. -/
  | secondWorkflow
  /-- There is no version statement. -/
  | missingVersion
deriving DecidableEq, Repr

namespace Violation

/-- The greatest number of decimal digits that are read as an integer. -/
def maxDigits : Nat := 4300

/-- The wording of a violation. -/
def message : Violation → String
  | .reservedName name => "unexpected keyword " ++ name
  | .badEscape => "Bad escape sequence in string literal"
  | .badNamespace =>
    "declare an import namespace that follows WDL name rules and isn't a language keyword "
      ++ "(import \"filename\" as some_namespace)"
  | .unknownOption name => "unknown placeholder option " ++ name
  | .repeatedOption name => "duplicate option " ++ name ++ " in expression placeholder"
  | .intTooGreat text => "integer literal out of range: " ++ text
  | .tooManyDigits count =>
    "Exceeds the limit (" ++ toString maxDigits ++ " digits) for integer string conversion: "
      ++ "value has " ++ toString count
      ++ " digits; use sys.set_int_max_str_digits() to increase the limit"
  | .arrayParameters => "Array must have one type parameter"
  | .badQuantifier type => "invalid type quantifier(s) for " ++ type
  | .twoParameters type => type ++ " must have two type parameters"
  | .noParameters type => type ++ " type doesn't accept parameters"
  | .missingInitializer name =>
    "output declaration " ++ name ++ " must have an initializer expression"
  | .repeatedKey key => "duplicate key " ++ key ++ " in meta object"
  | .repeatedSection kind owner => "redundant " ++ kind ++ " sections in " ++ owner
  | .repeatedMember member struct => "duplicate member " ++ member ++ " in struct " ++ struct
  | .repeatedAlias name => "struct type " ++ name ++ " aliased more than once in import"
  | .unsupportedVersion identifier supported =>
    "unsupported WDL version " ++ identifier ++ "; choices: " ++ ", ".intercalate supported
  | .secondVersion => "multiple version statements"
  | .lateVersion => "version statement must precede all other document elements"
  | .secondWorkflow => "Document has multiple workflows"
  | .missingVersion => "document must begin with a version statement, e.g. version 1.1"

end Violation

/-- A violation, and where it is. -/
structure Violated where
  violation : Violation
  range : Range
deriving DecidableEq, Repr

end Wdl
