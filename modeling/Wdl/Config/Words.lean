import Wdl.Text.LetterCase
import Wdl.Token.Scan

/-!
# Wdl.Config.Words -- what options may say

The options of the parser are the front end and whether reserved words are checked. Each takes
certain words only.
-/

namespace Wdl

namespace FrontEnd

/-- All front ends. -/
def all : List FrontEnd := [.tree, .flat]

/-- The name of a front end. -/
def name : FrontEnd → String
  | .tree => "tree"
  | .flat => "flat"

/-- The front end of a name. -/
def ofName? (s : String) : Option FrontEnd := all.find? fun fe => fe.name == s

theorem ofName?_name (fe : FrontEnd) : ofName? fe.name = some fe := by cases fe <;> decide

/-- The names of all front ends, as a list for people. -/
def names : String := ", ".intercalate (all.map name)

end FrontEnd

namespace Config

/-- The words for yes. -/
def yesWords : List String := ["t", "y", "1", "true", "yes", "on"]

/-- The words for no. -/
def noWords : List String := ["f", "n", "0", "false", "no", "off"]

/-- The truth value that a word stands for, in letters of any case. -/
def truth? (word : String) : Option Bool :=
  let word := LetterCase.small word
  if yesWords.contains word then some true
  else if noWords.contains word then some false
  else none

/-- An option that is checked, what is expected of it, and whether a word is that. -/
structure Rule where
  sec : String
  key : String
  expected : String
  accepts : String → Bool

/-- What is expected of a truth value. -/
def truthExpected : String := "bool"

/-- The section of the parser. -/
def parserSection : String := "parser"

/-- The option that names the front end. -/
def frontEndKey : String := "front_end"

/-- The option that says whether reserved words are checked. -/
def checkKey : String := "check_keywords"

/-- The options that are checked, in order. -/
def rules : List Rule :=
  [⟨parserSection, frontEndKey, "one of: " ++ FrontEnd.names, fun s => (FrontEnd.ofName? s).isSome⟩,
   ⟨parserSection, checkKey, truthExpected, fun s => (truth? s).isSome⟩]

end Config

end Wdl
