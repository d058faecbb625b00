import Wdl.Build.Document
import Wdl.Parser.Document

/-!
# Wdl.Parse -- from source text to abstract syntax

A text is parsed as a whole before anything is built from it, so that a text outside the grammar is
rejected as such whatever else is wrong with it.
-/

namespace Wdl

/-- Why a text has no abstract syntax. -/
inductive ParseError where
  /-- The text is not in the grammar of the front end. -/
  | syntaxError (fe : FrontEnd) (range : Range)
  /-- The text breaks another rule of the language. -/
  | violated (fe : FrontEnd) (v : Violated)
deriving DecidableEq, Repr

/-- Where an error is. -/
def ParseError.range : ParseError → Range
  | .syntaxError _ r => r
  | .violated _ v => v.range

/-- What parsing gives: the warnings in order, and a value or an error. -/
structure Parsed (α : Type) where
  warnings : List Warning
  result : Except ParseError α

variable {α β : Type}

/-- The outcome of building what was parsed. -/
def Parsed.ofBuilder (fe : FrontEnd) (b : Builder α) : Parsed α :=
  let (result, warnings) := StateT.run (ExceptT.run b) []
  match result with
  | .ok x => ⟨warnings, .ok x⟩
  | .error v => ⟨warnings, .error (.violated fe v)⟩

/-- Builds what was parsed, unless it was rejected. -/
def Parsed.ofSurface (fe : FrontEnd) (surface : Except Rejection α) (build : α → Builder β) :
    Parsed β :=
  match surface with
  | .error r => ⟨[], .error (.syntaxError fe (r.range fe))⟩
  | .ok s => .ofBuilder fe (build s)

/-- Parses a document. -/
def parseDocument (rules : Rules) (source : SourceText) : Parsed Document :=
  .ofSurface rules.frontEnd (Surface.Document.parse rules.frontEnd.next source.chars)
    (Build.document rules source)

/-- Parses an expression. -/
def parseExpr (rules : Rules) (source : SourceText) : Parsed Expr :=
  .ofSurface rules.frontEnd (Surface.Expr.parse rules.frontEnd.next source.chars)
    fun e => Build.check (Build.expr rules e)

end Wdl
