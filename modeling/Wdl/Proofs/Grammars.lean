import Wdl.Build.Expr
import Wdl.Proofs.Script

/-!
# Wdl.Proofs.Grammars -- the two grammars of expressions

The front ends write expressions down in two grammars. That of `FrontEnd.tree` has a nonterminal
for each level of operators, so that a derivation nests them; that of `FrontEnd.flat` derives runs
of operands and operators, of prefix operators, and of accesses, and leaves it to the callbacks to
nest them. `Derives` states both, one constructor for each production, and with it the outcome of
the callbacks that work from the leaves of a derivation up: what they build, or the first violation.

* `Nonterminal` lists the nonterminals of both grammars, `layerOps` the operators of each level.
* `Phrase` is what a nonterminal stands for: steps that take its terminals, and an outcome.
* `Done` states how a conflict is decided: what could be shifted is shifted. A nonterminal is
  complete only if nothing is ahead that it goes on with (`goesOn`), and a name is an operand only
  if nothing is ahead that makes it that of a function or struct (`claims`).
* `Suffix.built`, `ItemPiece.built`, `MemberPiece.built`, `Hole.built` and `PartPiece.built` are
  the callbacks of what stands within an operand; those of operands stand with their productions.
* `Derives rules nonterminal place look phrase`: the grammar of `rules.frontEnd` derives a phrase
  where `look` is the terminal ahead of it.

The productions of literals, strings, and what stands in brackets are those of `primary`; the two
grammars have them in common, but for those of numbers. A terminal carries what is looked for
behind it, as everywhere (`Step`), and there is one terminal for numbers of each notation; how a
front end finds them is told by `FrontEnd.scanNumber`. A derivation is about tokens only: how a
parser finds it, and whether it finds another, is not part of it.
-/

namespace Wdl.Parser

/-! ## Nonterminals -/

/-- The nonterminals of the two grammars. -/
inductive Nonterminal where
  /-- An expression: `expr` of both grammars. -/
  | expr
  /-- An operand without operators: `primary`, or what `expr_core` has in common with it. -/
  | primary
  /-- What the operators of a level stand between, and those before: `expr_infix0` to
  `expr_infix5`. -/
  | layer (level : Nat)
  /-- An operand with its prefix operators: `expr_unary`. -/
  | unary
  /-- An operand with its accesses: `expr_core`. -/
  | core
  /-- Operands with operators between them: `infix` of the flat grammar. -/
  | sequence
  /-- An operand with its prefix operators: `prefixed` of the flat grammar. -/
  | prefixed
  /-- An operand with its accesses: `access` of the flat grammar. -/
  | access
deriving DecidableEq, Repr

/-- The operators of a level. -/
def layerOps : Nat → List BinaryOp
  | 0 => [.or]
  | 1 => [.and]
  | 2 => [.eq, .ne]
  | 3 => [.le, .ge, .lt, .gt]
  | 4 => [.add, .sub]
  | 5 => [.mul, .div, .rem]
  | _ => []

/-- The nonterminals of the levels one behind the other; behind the last one are operands with
their prefix operators. -/
def tier (level : Nat) : Nonterminal := if level < 6 then .layer level else .unary

/-! ## Conflicts -/

/-- The terminals that a production goes on with behind a nonterminal: the operators of a level
behind what they stand between, and so on. -/
def goesOn : Nonterminal → Terminal → Bool
  | .layer level, t => (binaryOp? t).any fun op => (layerOps level).contains op
  | .sequence, t => (binaryOp? t).isSome
  | .core, t => startsAccessor t
  | .access, t => startsAccessor t
  | _, _ => false

/-- Nothing is ahead that could be shifted behind a nonterminal, so it is complete. -/
def Done (nonterminal : Nonterminal) (look : Option Terminal) : Prop :=
  look.any (goesOn nonterminal) = false

/-- A terminal that is shifted behind a name: it makes an application or a struct literal of it. -/
def claims : Terminal → Bool
  | .symbol .parenOpen | .symbol .braceOpen => true
  | _ => false

/-! ## Callbacks -/

/-- What stands for an expression in a derivation: the steps that take its terminals, and what the
callbacks make of them. -/
abbrev Phrase := Piece (Checked Expr)

/-- What the callbacks make of an access. -/
def Suffix.built (rules : Rules) : Suffix (Checked Expr) → Checked Build.Access
  | .member dot name => do
    Build.checkMember rules (word name)
    return .member ⟨dot.start, name.stop⟩ (word name).text
  | .index bracket close inner => do
    return .index ⟨bracket.start, close.stop⟩ (← inner.expr)

/-- What the callbacks make of a key and value of a map. -/
def ItemPiece.built (i : ItemPiece (Checked Expr)) : Checked (Expr × Expr) := do
  let key ← i.key.expr
  return (key, ← i.value.expr)

/-- What the callbacks make of a struct member. A key in quotes has a callback of its own, which
comes before those of the value; a bare key is checked with the member. -/
def MemberPiece.built (rules : Rules) (m : MemberPiece (Checked Expr)) : Checked (Text × Expr) :=
  match m.key with
  | .quoted _ t => do
    let key ← Build.quotedText rules.names (quoted t)
    return (key, ← m.value.expr)
  | .word t => do
    let value ← m.value.expr
    Build.checkName rules (word t)
    return (.ofString (word t).text, value)

/-- What the callbacks make of a placeholder: its options one by one, its expression, and last
whether an option is repeated. -/
def Hole.built (rules : Rules) (h : Hole (Checked Expr)) : Checked Placeholder := do
  let options ← h.options.mapM fun o => Build.placeholderOption rules.names o.option
  let e ← h.body.expr
  return .mk (spanOf h.steps) (← Build.distinct .repeatedOption [] options) e

/-- What the callbacks make of a part of a string or command. Literal text is decoded later, with
the whole. -/
def PartPiece.built (rules : Rules) : PartPiece (Checked Expr) → Checked Build.RawPart
  | .text t => .ok (.text t.range t.chars)
  | .hole _ _ h => do return .placeholder (← h.built rules)

/-- A part is literal text. -/
def PartPiece.isText {α : Type} : PartPiece α → Bool
  | .text _ => true
  | .hole _ _ _ => false

/-! ## Productions -/

/-- Items with commas between them, and none behind the last. -/
inductive Joined (after : Expect) : List (List Step) → List Step → Prop
  | nil : Joined after [] []
  | single (item : List Step) : Joined after [item] item
  | cons {item next : List Step} {items : List (List Step)} {xs : List Step} (comma : Token) :
      comma.kind = .symbol .comma → Joined after (next :: items) xs →
      Joined after (item :: next :: items) (item ++ ⟨comma, after⟩ :: xs)

/-- What stands behind an item of a list: a comma, or what closes the list. -/
def separators (close : Symbol) : List Terminal := [.symbol .comma, .symbol close]

/-- What is ahead of an operand in a run of them: the operator of the next link, or else what is
ahead of the run. -/
def lookBehind {α : Type} (look : Option Terminal) : List (Link α) → Option Terminal
  | [] => look
  | l :: _ => some l.sign.kind

/-- What is ahead of the subject of accesses. -/
def lookAccess {α : Type} (look : Option Terminal) : List (Suffix α) → Option Terminal
  | [] => look
  | .member dot _ :: _ => some dot.kind
  | .index bracket _ _ :: _ => some bracket.kind

/-- The grammar of a front end derives a phrase from a nonterminal, where a terminal is ahead. -/
inductive Derives (rules : Rules) : Nonterminal → Place → Option Terminal → Phrase → Prop
  /-- `expr: expr_infix0` -/
  | tree {place : Place} {look : Option Terminal} {p : Phrase} : rules.frontEnd = .tree →
      Derives rules (.layer 0) place look p → Done (.layer 0) look →
      Derives rules .expr place look p
  /-- `expr_infix0: expr_infix1`, and so on up to `expr_infix5: expr_unary` -/
  | pass {place : Place} {look : Option Terminal} {p : Phrase} {level : Nat} : level < 6 →
      Derives rules (tier (level + 1)) place look p → Done (tier (level + 1)) look →
      Derives rules (.layer level) place look p
  /-- `expr_infix0: expr_infix0 "||" expr_infix1`, and so on up to
  `expr_infix5: expr_infix5 "%" expr_unary` -/
  | binary {place : Place} {look : Option Terminal} {l r : Phrase} {level : Nat} {op : BinaryOp}
      (sign : Token) : op ∈ layerOps level → binaryOp? sign.kind = some op →
      Derives rules (.layer level) place (some sign.kind) l →
      Derives rules (tier (level + 1)) .plain look r → Done (tier (level + 1)) look →
      Derives rules (.layer level) place look
        ⟨do
          let left ← l.expr
          let right ← r.expr
          return .binary (spanOf (l.steps ++ ⟨sign, Expect.expr⟩ :: r.steps)) op left right,
        l.steps ++ ⟨sign, Expect.expr⟩ :: r.steps⟩
  /-- `expr_unary: "!" expr_unary | "-" expr_unary | "+" expr_unary` -/
  | sign {place : Place} {look : Option Terminal} {p : Phrase} (x : Sign) :
      unaryOp? x.token.kind = some x.op → Derives rules .unary .plain look p →
      Derives rules .unary place look
        ⟨do return Build.applySign (spanOf (x.step :: p.steps)) x.op (← p.expr),
        x.step :: p.steps⟩
  /-- `expr_unary: expr_core` -/
  | unsigned {place : Place} {look : Option Terminal} {p : Phrase} :
      Derives rules .core place look p → Done .core look → Derives rules .unary place look p
  /-- `expr_core: group | literal | string | array | pair | map | ifthenelse | apply | obj`, and
  `expr_core: CNAME` -/
  | operand {place : Place} {look : Option Terminal} {p : Phrase} :
      Derives rules .primary place look p → Derives rules .core place look p
  /-- `expr_core: expr_core "[" expr "]" | expr_core "." CNAME` -/
  | suffix {place : Place} {look : Option Terminal} {p : Phrase} (a : Suffix (Checked Expr)) :
      Derives rules .core place (lookAccess look [a]) p → a.Fits →
      (∀ x ∈ a.inner, Derives rules .expr .plain (some (.symbol .bracketClose)) x) →
      Derives rules .core place look
        ⟨do
          let subject ← p.expr
          let access ← a.built rules
          return access.apply (spanOf (p.steps ++ a.steps)) subject,
        p.steps ++ a.steps⟩
  /-- `expr: infix` -/
  | flat {place : Place} {look : Option Terminal} {p : Phrase} : rules.frontEnd = .flat →
      Derives rules .sequence place look p → Derives rules .expr place look p
  /-- `infix: prefixed (binop prefixed)*` -/
  | sequence {place : Place} {look : Option Terminal} {p : Phrase}
      (links : List (Link (Checked Expr))) :
      Derives rules .prefixed place (lookBehind look links) p →
      (∀ l ∈ links, binaryOp? l.sign.kind = some l.op) →
      (∀ before l after, links = before ++ l :: after →
        Derives rules .prefixed .plain (lookBehind look after) l.operand) →
      Done .sequence look →
      Derives rules .sequence place look
        ⟨do
          let first ← p.expr
          let rest ← links.mapM fun l => do return (l.op, ← l.operand.expr)
          return Grouping.climb Build.combineBuilt first rest,
        p.steps ++ links.flatMap Link.steps⟩
  /-- `prefixed: access` -/
  | bare {place : Place} {look : Option Terminal} {p : Phrase} :
      Derives rules .access place look p → Derives rules .prefixed place look p
  /-- `unary: ("!" | "-" | "+")+ access` -/
  | signs {place : Place} {look : Option Terminal} {p : Phrase} (signs : List Sign) :
      signs ≠ [] → (∀ x ∈ signs, unaryOp? x.token.kind = some x.op) →
      Derives rules .access .plain look p →
      Derives rules .prefixed place look
        ⟨do
          let operand ← p.expr
          let whole := spanOf (signs.map Sign.step ++ p.steps)
          return Build.foldSigns whole (signs.map Sign.sign) operand,
        signs.map Sign.step ++ p.steps⟩
  /-- `access: primary (index | field)*` -/
  | access {place : Place} {look : Option Terminal} {p : Phrase}
      (suffixes : List (Suffix (Checked Expr))) :
      Derives rules .primary place (lookAccess look suffixes) p → (∀ a ∈ suffixes, a.Fits) →
      (∀ a ∈ suffixes, ∀ x ∈ a.inner,
        Derives rules .expr .plain (some (.symbol .bracketClose)) x) →
      Done .access look →
      Derives rules .access place look
        ⟨do
          let subject ← p.expr
          let accesses ← suffixes.mapM (Suffix.built rules)
          return Build.foldAccesses subject accesses,
        p.steps ++ suffixes.flatMap Suffix.steps⟩
  /-- `literal: "true" | "false"` -/
  | boolean {place : Place} {look : Option Terminal} (t : Token) (value : Bool) :
      t.kind = .keyword (truth value) →
      Derives rules .primary place look ⟨.ok (.boolean t.range value), [⟨t, place.afterTruth⟩]⟩
  /-- `literal: "None"` -/
  | null {place : Place} {look : Option Terminal} (t : Token) : t.kind = .keyword .kwNone →
      Derives rules .primary place look ⟨.ok (.null t.range), [⟨t, Expect.afterOperand⟩]⟩
  /-- `number: HEX_INT | OCT_INT | DEC_INT | FLOAT` -/
  | number {place : Place} {look : Option Terminal} (t : Token) (kind : NumeralKind) :
      rules.frontEnd = .tree → t.kind = .number kind →
      Derives rules .primary place look
        ⟨do return (← Build.numberValue (numeral kind t)).expr t.range, [⟨t, Expect.afterNumber⟩]⟩
  /-- `number: NUMBER`, whose callback tells the notation from the text -/
  | numberText {place : Place} {look : Option Terminal} (t : Token) :
      rules.frontEnd = .flat → t.kind = .number (Numeral.classify t.chars) →
      Derives rules .primary place look
        ⟨do return (← Build.numberValue (numeral (Numeral.classify t.chars) t)).expr t.range,
        [⟨t, Expect.afterNumber⟩]⟩
  /-- `CNAME`, which is no name of a function or struct -/
  | name {place : Place} {look : Option Terminal} (t : Token) : t.kind = .name →
      look.any claims = false →
      Derives rules .primary place look
        ⟨do
          Build.checkName rules (word t)
          return .ident t.range (word t).text,
        [⟨t, place.afterName⟩]⟩
  /-- `string: QUOTE (FRAGMENT? OPENING placeholder "}")* FRAGMENT? QUOTE`, for either quotation
  mark, where `placeholder: placeholder_option* expr` -/
  | string {place : Place} {look : Option Terminal} (q : Quote) (start close : Token)
      (parts : List (PartPiece (Checked Expr))) : start.kind = .mark q → close.kind = .mark q →
      (∀ x ∈ parts, x.Fits (.string q)) →
      (parts.IsChain fun x y => x.isText = false ∨ y.isText = false) →
      (∀ x ∈ parts, ∀ p ∈ x.inner,
        Derives rules .expr .placeholder (some (.symbol .braceClose)) p) →
      Derives rules .primary place look
        ⟨do
          let raw ← parts.mapM (PartPiece.built rules)
          return .string ⟨start.start, close.stop⟩ (← Build.decodeParts rules.names raw),
        ⟨start, Expect.inString q⟩ ::
          (parts.flatMap (PartPiece.steps (.string q)) ++ [⟨close, Expect.afterOperand⟩])⟩
  /-- `array: "[" [expr ("," expr)* ","?] "]"` -/
  | array {place : Place} {look : Option Terminal} (bracket close : Token) (items : List Phrase)
      {xs : List Step} : bracket.kind = .symbol .bracketOpen → close.kind = .symbol .bracketClose →
      (∀ x ∈ items, ∀ t ∈ separators .bracketClose, Derives rules .expr .plain (some t) x) →
      Separated Expect.exprOrBracket (items.map Piece.steps) xs →
      Derives rules .primary place look
        ⟨do return .array ⟨bracket.start, close.stop⟩ (← items.mapM Piece.expr),
        ⟨bracket, Expect.exprOrBracket⟩ :: (xs ++ [⟨close, Expect.afterOperand⟩])⟩
  /-- `group: "(" expr ")"` -/
  | group {place : Place} {look : Option Terminal} (paren close : Token) {p : Phrase} :
      paren.kind = .symbol .parenOpen → close.kind = .symbol .parenClose →
      Derives rules .expr .plain (some close.kind) p →
      Derives rules .primary place look
        ⟨do return (← p.expr).withRange ⟨paren.start, close.stop⟩,
        ⟨paren, Expect.expr⟩ :: (p.steps ++ [⟨close, Expect.afterOperand⟩])⟩
  /-- `pair: "(" expr "," expr ")"` -/
  | pair {place : Place} {look : Option Terminal} (paren comma close : Token) {l r : Phrase} :
      paren.kind = .symbol .parenOpen → comma.kind = .symbol .comma →
      close.kind = .symbol .parenClose →
      Derives rules .expr .plain (some comma.kind) l →
      Derives rules .expr .plain (some close.kind) r →
      Derives rules .primary place look
        ⟨do
          let left ← l.expr
          return .pair ⟨paren.start, close.stop⟩ left (← r.expr),
        ⟨paren, Expect.expr⟩ ::
          (l.steps ++ ⟨comma, Expect.expr⟩ :: (r.steps ++ [⟨close, Expect.afterOperand⟩]))⟩
  /-- `map: "{" [map_kv ("," map_kv)* ","?] "}"` with `map_kv: expr ":" expr` -/
  | map {place : Place} {look : Option Terminal} (brace close : Token)
      (items : List (ItemPiece (Checked Expr))) {xs : List Step} :
      brace.kind = .symbol .braceOpen → close.kind = .symbol .braceClose →
      (∀ i ∈ items, i.colon.kind = .symbol .colon) →
      (∀ i ∈ items, Derives rules .expr .plain (some i.colon.kind) i.key) →
      (∀ i ∈ items, ∀ t ∈ separators .braceClose, Derives rules .expr .plain (some t) i.value) →
      Separated Expect.exprOrBrace (items.map ItemPiece.steps) xs →
      Derives rules .primary place look
        ⟨do return .map ⟨brace.start, close.stop⟩ (← items.mapM ItemPiece.built),
        ⟨brace, Expect.exprOrBrace⟩ :: (xs ++ [⟨close, Expect.afterOperand⟩])⟩
  /-- `ifthenelse: "if" expr "then" expr "else" expr` -/
  | choice {place : Place} {look : Option Terminal} (kwIf kwThen kwElse : Token) {a b c : Phrase} :
      kwIf.kind = .keyword .kwIf → kwThen.kind = .keyword .kwThen →
      kwElse.kind = .keyword .kwElse →
      Derives rules .expr .plain (some kwThen.kind) a →
      Derives rules .expr .plain (some kwElse.kind) b →
      Derives rules .expr .plain look c →
      Derives rules .primary place look
        ⟨do
          let condition ← a.expr
          let consequent ← b.expr
          return .ifThenElse (kwIf.range.join (spanOf c.steps)) condition consequent (← c.expr),
        ⟨kwIf, Expect.expr⟩ ::
          (a.steps ++ ⟨kwThen, Expect.expr⟩ :: (b.steps ++ ⟨kwElse, Expect.expr⟩ :: c.steps))⟩
  /-- `apply: CNAME "(" [expr ("," expr)*] ")"` -/
  | apply {place : Place} {look : Option Terminal} (name paren close : Token)
      (arguments : List Phrase) {xs : List Step} : name.kind = .name →
      paren.kind = .symbol .parenOpen → close.kind = .symbol .parenClose →
      (∀ x ∈ arguments, ∀ t ∈ separators .parenClose, Derives rules .expr .plain (some t) x) →
      Joined Expect.expr (arguments.map Piece.steps) xs →
      Derives rules .primary place look
        ⟨do
          let built ← arguments.mapM Piece.expr
          return .apply ⟨name.start, close.stop⟩ (word name).text built,
        ⟨name, place.afterName⟩ :: ⟨paren, Expect.exprOrParen⟩ ::
          (xs ++ [⟨close, Expect.afterOperand⟩])⟩
  /-- `obj: CNAME "{" [object_kv ("," object_kv)* ","?] "}"` with
  `object_kv: CNAME ":" expr | string_literal ":" expr` -/
  | struct {place : Place} {look : Option Terminal} (name brace close : Token)
      (ms : List (MemberPiece (Checked Expr))) {xs : List Step} : name.kind = .name →
      brace.kind = .symbol .braceOpen → close.kind = .symbol .braceClose →
      (∀ m ∈ ms, m.key.Fits ∧ m.colon.kind = .symbol .colon) →
      (∀ m ∈ ms, ∀ t ∈ separators .braceClose, Derives rules .expr .plain (some t) m.value) →
      Separated Expect.members (ms.map MemberPiece.steps) xs →
      Derives rules .primary place look
        ⟨do
          let built ← ms.mapM (MemberPiece.built rules)
          return .struct ⟨name.start, close.stop⟩ built (← Build.structName rules (word name)),
        ⟨name, place.afterName⟩ :: ⟨brace, Expect.members⟩ ::
          (xs ++ [⟨close, Expect.afterOperand⟩])⟩

end Wdl.Parser
