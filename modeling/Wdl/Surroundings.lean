import Wdl.Files

/-!
# Wdl.Surroundings -- what a program finds when it runs

Configuration depends on environment variables and files. Both can change from one operation to the
next, so every operation that looks at them is given them.
-/

namespace Wdl

/-- Environment variables; the first one of a name counts. -/
abbrev Variables := List (String × String)

/-- The variables and files that a program finds. -/
structure Surroundings where
  environment : Variables
  files : Files
deriving Repr

end Wdl
