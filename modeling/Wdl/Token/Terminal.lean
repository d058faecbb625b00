import Wdl.Number.Numeral
import Wdl.Text.Range

/-!
# Wdl.Token.Terminal -- the alphabet of the grammar

A terminal is a keyword, a symbol, or a class of texts such as the names. Keywords and symbols have
one spelling each; the classes are described by the scanners of `Wdl.Token.Scan`.
-/

namespace Wdl

/-- The two marks a string is written between. -/
inductive Quote where
  | single
  | double
deriving DecidableEq, Repr, Inhabited

/-- The character of a quotation mark. -/
def Quote.char : Quote → Char
  | .single => '\''
  | .double => '"'

/-- The two ways to delimit a command. -/
inductive CommandStyle where
  | braces
  | heredoc
deriving DecidableEq, Repr, Inhabited

/-- Words with a meaning of their own, where the grammar expects them. -/
inductive Keyword where
  | kwVersion | kwImport | kwAs | kwAlias | kwWorkflow | kwScatter | kwIn | kwIf | kwCall
  | kwInput | kwTask | kwRuntime | kwCommand | kwStruct | kwOutput | kwMeta | kwParameterMeta
  | kwNull | kwTrue | kwFalse | kwNone | kwThen | kwElse
deriving DecidableEq, Repr, Inhabited

namespace Keyword

/-- How a keyword is written. -/
def spelling : Keyword → List Char
  | .kwVersion => "version".toList
  | .kwImport => "import".toList
  | .kwAs => "as".toList
  | .kwAlias => "alias".toList
  | .kwWorkflow => "workflow".toList
  | .kwScatter => "scatter".toList
  | .kwIn => "in".toList
  | .kwIf => "if".toList
  | .kwCall => "call".toList
  | .kwInput => "input".toList
  | .kwTask => "task".toList
  | .kwRuntime => "runtime".toList
  | .kwCommand => "command".toList
  | .kwStruct => "struct".toList
  | .kwOutput => "output".toList
  | .kwMeta => "meta".toList
  | .kwParameterMeta => "parameter_meta".toList
  | .kwNull => "null".toList
  | .kwTrue => "true".toList
  | .kwFalse => "false".toList
  | .kwNone => "None".toList
  | .kwThen => "then".toList
  | .kwElse => "else".toList

/-- All keywords. -/
def all : List Keyword :=
  [.kwVersion, .kwImport, .kwAs, .kwAlias, .kwWorkflow, .kwScatter, .kwIn, .kwIf, .kwCall,
   .kwInput, .kwTask, .kwRuntime, .kwCommand, .kwStruct, .kwOutput, .kwMeta, .kwParameterMeta,
   .kwNull, .kwTrue, .kwFalse, .kwNone, .kwThen, .kwElse]

theorem mem_all (k : Keyword) : k ∈ all := by cases k <;> decide

theorem spellings_nodup : (all.map spelling).Nodup := by decide

end Keyword

/-- Punctuation marks and operators. -/
inductive Symbol where
  | heredocOpen | heredocClose
  | tildeBrace | orOr | andAnd | equalEqual | notEqual | atMost | atLeast | plusQuestion
  | less | greater | plus | minus | star | slash | percent | bang | question
  | braceOpen | braceClose | bracketOpen | bracketClose | parenOpen | parenClose
  | comma | colon | dot | equal
deriving DecidableEq, Repr, Inhabited

namespace Symbol

/-- How a symbol is written. -/
def spelling : Symbol → List Char
  | .heredocOpen => "<<<".toList
  | .heredocClose => ">>>".toList
  | .tildeBrace => "~\x7b".toList
  | .orOr => "||".toList
  | .andAnd => "&&".toList
  | .equalEqual => "==".toList
  | .notEqual => "!=".toList
  | .atMost => "<=".toList
  | .atLeast => ">=".toList
  | .plusQuestion => "+?".toList
  | .less => "<".toList
  | .greater => ">".toList
  | .plus => "+".toList
  | .minus => "-".toList
  | .star => "*".toList
  | .slash => "/".toList
  | .percent => "%".toList
  | .bang => "!".toList
  | .question => "?".toList
  | .braceOpen => "\x7b".toList
  | .braceClose => "\x7d".toList
  | .bracketOpen => "[".toList
  | .bracketClose => "]".toList
  | .parenOpen => "(".toList
  | .parenClose => ")".toList
  | .comma => ",".toList
  | .colon => ":".toList
  | .dot => ".".toList
  | .equal => "=".toList

/-- All symbols, longer spellings first. -/
def all : List Symbol :=
  [.heredocOpen, .heredocClose,
   .tildeBrace, .orOr, .andAnd, .equalEqual, .notEqual, .atMost, .atLeast, .plusQuestion,
   .less, .greater, .plus, .minus, .star, .slash, .percent, .bang, .question,
   .braceOpen, .braceClose, .bracketOpen, .bracketClose, .parenOpen, .parenClose,
   .comma, .colon, .dot, .equal]

theorem mem_all (s : Symbol) : s ∈ all := by cases s <;> decide

theorem all_sorted : all.Pairwise fun s t => t.spelling.length ≤ s.spelling.length := by decide

end Symbol

/-- The classes of text the grammar is made of. -/
inductive Terminal where
  /-- A word with a meaning of its own. -/
  | keyword (k : Keyword)
  /-- A punctuation mark or operator. -/
  | symbol (s : Symbol)
  /-- A letter followed by letters, digits and underscores. -/
  | name
  /-- A numeric literal. -/
  | number (kind : NumeralKind)
  /-- A whole string without placeholders, its marks included. -/
  | quoted (q : Quote)
  /-- The mark at either end of a string with placeholders. -/
  | mark (q : Quote)
  /-- Literal text inside a string. -/
  | stringText (q : Quote)
  /-- Literal text inside a command. -/
  | commandText (style : CommandStyle)
  /-- What opens a placeholder, a tilde or a dollar sign with a brace. -/
  | opening
  /-- The identifier of a language version. -/
  | versionWord
deriving DecidableEq, Repr, Inhabited

/-- A piece of a text that belongs to a terminal. -/
structure Token where
  kind : Terminal
  chars : List Char
  start : Nat
deriving DecidableEq, Repr, Inhabited

namespace Token

/-- The position after the token. -/
def stop (t : Token) : Nat := t.start + t.chars.length

/-- Where the token is. -/
def range (t : Token) : Range := ⟨t.start, t.stop⟩

/-- The text of the token. -/
def text (t : Token) : String := String.ofList t.chars

end Token

end Wdl
