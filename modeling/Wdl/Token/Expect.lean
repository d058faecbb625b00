import Wdl.Token.Terminal

/-!
# Wdl.Token.Expect -- which terminals are looked for after which

A word such as `input` is a keyword in one place and a name in another, and a quotation mark may
open a string with placeholders or a literal without. What is looked for in the text is decided by
the token before: after it, exactly those terminals are tried that some text of the language has
after that token in the same role. Each definition here is such a set, named for the token before
or for what follows.
-/

namespace Wdl

/-- The terminals that are looked for at some place of a text. -/
abbrev Expect := List Terminal

namespace Expect

/-! ## Groups that recur -/

/-- Numeric literals. -/
def numbers : Expect := [.number .float, .number .hexadecimal, .number .octal, .number .decimal]

/-- String literals without placeholders. -/
def quoteds : Expect := [.quoted .double, .quoted .single]

/-- Binary operators. -/
def binaries : Expect :=
  [.symbol .orOr, .symbol .andAnd, .symbol .equalEqual, .symbol .notEqual, .symbol .atMost,
   .symbol .atLeast, .symbol .less, .symbol .greater, .symbol .plus, .symbol .minus,
   .symbol .star, .symbol .slash, .symbol .percent]

/-- What opens a member or index access. -/
def accesses : Expect := [.symbol .dot, .symbol .bracketOpen]

/-- What opens a section that a workflow and a task can both have. -/
def sections : Expect :=
  [.keyword .kwInput, .keyword .kwOutput, .keyword .kwMeta, .keyword .kwParameterMeta]

/-- What opens a call or a nested section of a workflow. -/
def workflowNodes : Expect := [.keyword .kwCall, .keyword .kwScatter, .keyword .kwIf]

/-- A closing brace, or the name that starts one more entry. -/
def entries : Expect := [.symbol .braceClose, .name]

/-! ## Single terminals -/

def aName : Expect := [.name]
def aBrace : Expect := [.symbol .braceOpen]
def aParen : Expect := [.symbol .parenOpen]
def aColon : Expect := [.symbol .colon]
def anEqual : Expect := [.symbol .equal]
def anAs : Expect := [.keyword .kwAs]
def anIn : Expect := [.keyword .kwIn]
def aVersion : Expect := [.versionWord]

/-! ## Documents -/

/-- Between the elements of a document. -/
def elements : Expect :=
  [.keyword .kwImport, .keyword .kwStruct, .keyword .kwTask, .keyword .kwVersion,
   .keyword .kwWorkflow]

/-- After the namespace or an alias of an import. -/
def aliases : Expect := .keyword .kwAlias :: elements

/-! ## Expressions -/

/-- Where an expression starts. -/
def expr : Expect :=
  [.symbol .bang, .symbol .minus, .symbol .plus, .symbol .parenOpen, .symbol .bracketOpen,
   .symbol .braceOpen, .mark .double, .mark .single, .keyword .kwIf, .keyword .kwTrue,
   .keyword .kwFalse, .keyword .kwNone, .name] ++ numbers

/-- Where an argument or an end of arguments starts. -/
def exprOrParen : Expect := .symbol .parenClose :: expr

/-- Where an array item or the end of the array starts. -/
def exprOrBracket : Expect := .symbol .bracketClose :: expr

/-- Where a map key or the end of the map starts. -/
def exprOrBrace : Expect := .symbol .braceClose :: expr

/-- After the last token of an operand, whatever it is an operand of. -/
def afterOperand : Expect :=
  binaries ++ accesses ++
  [.symbol .parenClose, .symbol .comma, .symbol .colon, .symbol .bracketClose,
   .symbol .braceClose, .keyword .kwThen, .keyword .kwElse, .keyword .kwCommand,
   .keyword .kwRuntime, .name] ++ workflowNodes ++ sections

/-- After a name that may be an operand, a function or a struct. -/
def afterName : Expect := .symbol .parenOpen :: .symbol .braceOpen :: afterOperand

/-- After a number, which may be an operand, a placeholder option or a meta value. -/
def afterNumber : Expect := afterOperand ++ expr

/-- After a string literal, which may be a key, a placeholder option, a meta value or a URI. -/
def afterQuoted : Expect :=
  [.symbol .comma, .symbol .colon, .symbol .bracketClose, .symbol .braceClose, .keyword .kwAs]
    ++ aliases ++ expr

/-- Where a struct member or the end of the struct starts. -/
def members : Expect := entries ++ quoteds

/-! ## Placeholders, strings and commands -/

/-- After a truth value that starts a placeholder; it may be the name of an option. -/
def afterPlaceholderTruth : Expect :=
  .symbol .equal :: .symbol .braceClose :: (binaries ++ accesses)

/-- After a name that starts a placeholder; it may be the name of an option. -/
def afterPlaceholderName : Expect :=
  .symbol .parenOpen :: .symbol .braceOpen :: afterPlaceholderTruth

/-- Where the value of a placeholder option starts. -/
def optionValue : Expect := numbers ++ quoteds

/-- Inside a string, where literal text may start. -/
def inString (q : Quote) : Expect := [.mark q, .stringText q, .opening]

/-- Inside a string, after literal text. -/
def afterStringText (q : Quote) : Expect := [.mark q, .opening]

/-- What opens a command. -/
def commandOpen : Expect := [.symbol .heredocOpen, .symbol .braceOpen]

/-- Inside a command, after literal text. -/
def afterCommandText : CommandStyle → Expect
  | .braces => [.symbol .braceClose, .opening]
  | .heredoc => [.symbol .heredocClose, .symbol .tildeBrace]

/-- Inside a command, where literal text may start. -/
def inCommand (style : CommandStyle) : Expect := .commandText style :: afterCommandText style

/-! ## Types and declarations -/

/-- After a type without quantifiers to come. -/
def afterType : Expect := [.symbol .comma, .symbol .bracketClose, .name]

/-- After a type that may get quantifiers. -/
def quantifiers : Expect :=
  [.symbol .plusQuestion, .symbol .plus, .symbol .question] ++ afterType

/-- After the name of a type. -/
def afterTypeName : Expect := .symbol .bracketOpen :: quantifiers

/-- After the name of a declaration that may have an initializer. -/
def afterDeclName : Expect := .symbol .equal :: entries

/-! ## Tasks and workflows -/

/-- The start of a task's body. -/
def taskBody : Expect := [.keyword .kwCommand, .keyword .kwRuntime, .name] ++ sections

/-- After a command. -/
def afterCommand : Expect := [.symbol .braceClose, .keyword .kwRuntime, .name] ++ sections

/-- After a runtime section. -/
def afterRuntime : Expect := .symbol .braceClose :: taskBody

/-- After an input or output section of a task or workflow. -/
def afterDecls : Expect := afterRuntime ++ workflowNodes

/-- The start of a workflow's body, and after a call or a nested section in it. -/
def workflowBody : Expect := [.symbol .braceClose, .name] ++ workflowNodes ++ sections

/-- The start of a nested section's body. -/
def nestedBody : Expect := [.symbol .braceClose, .name] ++ workflowNodes

/-- After the alias of a call. -/
def afterCallAlias : Expect := .symbol .braceOpen :: workflowBody

/-- After a name within the callee of a call. -/
def afterCallee : Expect := .symbol .dot :: .keyword .kwAs :: afterCallAlias

/-- The start of the inputs of a call. -/
def callInputs : Expect := .keyword .kwInput :: entries

/-- After the name of a call input. -/
def afterInputName : Expect := [.symbol .comma, .symbol .equal, .symbol .braceClose]

/-! ## Meta values -/

/-- Where a meta value starts. -/
def metaValue : Expect :=
  [.symbol .plus, .symbol .minus, .symbol .bracketOpen, .symbol .braceOpen, .keyword .kwNull,
   .keyword .kwTrue, .keyword .kwFalse] ++ numbers ++ quoteds

/-- Where an item of a meta array or its end starts. -/
def metaItem : Expect := .symbol .bracketClose :: metaValue

/-- After a meta word or a meta array. -/
def afterMeta : Expect := [.symbol .comma, .symbol .bracketClose, .symbol .braceClose, .name]

/-- After a meta object, which may be the body of a section. -/
def afterMetaObject : Expect := .symbol .comma :: .symbol .bracketClose :: afterDecls

end Expect

end Wdl
