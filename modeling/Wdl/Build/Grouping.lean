import Wdl.Surface.Expr

/-!
# Wdl.Build.Grouping -- two ways to nest a chain of operators

A chain is an operand followed by operators with an operand each. `layered` cuts it at the loosest
operators first and nests the stretches between them level by level. `climb` takes operator after
operator, and nests what is on its stacks as soon as no tighter operator can take it. Both work for
any way to combine two operands.
-/

namespace Wdl.Grouping

variable {α : Type}

/-! ## Level by level -/

/-- Cuts a chain at the operators of one level: what belongs to the first operand, and each
operator of the level with the operand and chain that follow it. -/
def cut (level : Nat) :
    List (BinaryOp × α) → List (BinaryOp × α) × List (BinaryOp × α × List (BinaryOp × α))
  | [] => ([], [])
  | (op, x) :: rest =>
    let (own, more) := cut level rest
    if op.precedence = level then ([], (op, x, own) :: more) else ((op, x) :: own, more)

/-- Nests a chain whose operators are of the given levels, the loosest first. -/
def layers (combine : BinaryOp → α → α → α) : List Nat → α → List (BinaryOp × α) → α
  | [], first, _ => first
  | level :: tighter, first, rest =>
    let (own, more) := cut level rest
    more.foldl (fun left (op, x, xs) => combine op left (layers combine tighter x xs))
      (layers combine tighter first own)

/-- The levels of operators, the loosest first. -/
def levels : List Nat := [1, 2, 3, 4, 5, 6]

/-- Nests a chain level by level. -/
def layered (combine : BinaryOp → α → α → α) (first : α) (rest : List (BinaryOp × α)) : α :=
  layers combine levels first rest

/-! ## Operator by operator -/

/-- The operands and operators that wait to be nested, the latest first. -/
structure Stacks (α : Type) where
  operands : List α
  operators : List BinaryOp

/-- There is one operand more than operators. -/
def Stacks.Balanced (s : Stacks α) : Prop := s.operands.length = s.operators.length + 1

/-- Nests the two latest operands as long as the latest operator passes a test. It fails where an
operator lacks its operands. -/
def reduceWhile (combine : BinaryOp → α → α → α) (test : BinaryOp → Bool) :
    List α → List BinaryOp → Option (Stacks α)
  | operands, [] => some ⟨operands, []⟩
  | operands, op :: operators =>
    if test op then
      match operands with
      | right :: left :: operands =>
        reduceWhile combine test (combine op left right :: operands) operators
      | _ => none
    else some ⟨operands, op :: operators⟩

/-- Nests what binds at least as tightly as the new operator, then puts operator and operand on the
stacks. -/
def push (combine : BinaryOp → α → α → α) (s : Stacks α) (op : BinaryOp) (x : α) :
    Option (Stacks α) :=
  (reduceWhile combine (fun top => op.precedence ≤ top.precedence) s.operands s.operators).map
    fun s => ⟨x :: s.operands, op :: s.operators⟩

/-- Puts a chain on the stacks. -/
def pushAll (combine : BinaryOp → α → α → α) : Stacks α → List (BinaryOp × α) → Option (Stacks α)
  | s, [] => some s
  | s, (op, x) :: rest => (push combine s op x).bind (pushAll combine · rest)

/-- The one operand that is left once nothing waits. -/
def onlyOperand? (s : Stacks α) : Option α :=
  match s with
  | ⟨[x], []⟩ => some x
  | _ => none

/-- Nests a chain operator by operator. It fails where the stacks do. -/
def climb? (combine : BinaryOp → α → α → α) (first : α) (rest : List (BinaryOp × α)) : Option α :=
  ((pushAll combine ⟨[first], []⟩ rest).bind fun s =>
    reduceWhile combine (fun _ => true) s.operands s.operators).bind onlyOperand?

theorem reduceWhile_balanced (combine : BinaryOp → α → α → α) (test : BinaryOp → Bool)
    (operands : List α) (operators : List BinaryOp)
    (h : operands.length = operators.length + 1) :
    ∃ s, reduceWhile combine test operands operators = some s ∧ s.Balanced := by
  induction operators generalizing operands with
  | nil => exact ⟨_, rfl, h⟩
  | cons op operators ih =>
    unfold reduceWhile
    split
    · match operands, h with
      | right :: left :: operands, h => exact ih _ (by simpa using h)
    · exact ⟨_, rfl, h⟩

theorem push_balanced (combine : BinaryOp → α → α → α) {s : Stacks α} (h : s.Balanced)
    (op : BinaryOp) (x : α) : ∃ t, push combine s op x = some t ∧ t.Balanced := by
  obtain ⟨t, eq, balanced⟩ := reduceWhile_balanced combine
    (fun top => op.precedence ≤ top.precedence) s.operands s.operators h
  exact ⟨_, by rw [push, eq]; rfl, by simpa [Stacks.Balanced] using balanced⟩

theorem pushAll_balanced (combine : BinaryOp → α → α → α) {s : Stacks α} (h : s.Balanced)
    (rest : List (BinaryOp × α)) : ∃ t, pushAll combine s rest = some t ∧ t.Balanced := by
  induction rest generalizing s with
  | nil => exact ⟨s, rfl, h⟩
  | cons head rest ih =>
    obtain ⟨op, x⟩ := head
    obtain ⟨t, eq, balanced⟩ := push_balanced combine h op x
    obtain ⟨u, eq', balanced'⟩ := ih balanced
    exact ⟨u, by rw [pushAll, eq]; exact eq', balanced'⟩

theorem reduceAll_operators (combine : BinaryOp → α → α → α) (operands : List α)
    (operators : List BinaryOp) {s : Stacks α}
    (h : reduceWhile combine (fun _ => true) operands operators = some s) : s.operators = [] := by
  induction operators generalizing operands with
  | nil => cases h; rfl
  | cons op operators ih =>
    unfold reduceWhile at h
    simp only [if_true] at h
    match operands, h with
    | right :: left :: operands, h => exact ih _ h

/-- No stack is ever popped empty, and one operand is left in the end. -/
theorem climb?_isSome (combine : BinaryOp → α → α → α) (first : α) (rest : List (BinaryOp × α)) :
    (climb? combine first rest).isSome := by
  obtain ⟨s, eq, balanced⟩ := pushAll_balanced combine
    (show (⟨[first], []⟩ : Stacks α).Balanced from rfl) rest
  obtain ⟨t, eq', balanced'⟩ := reduceWhile_balanced combine (fun _ => true) _ _ balanced
  have none_left := reduceAll_operators combine _ _ eq'
  obtain ⟨operands, operators⟩ := t
  simp only at none_left
  subst none_left
  match operands, balanced' with
  | [x], _ => simp [climb?, eq, eq', onlyOperand?]

/-- Nests a chain operator by operator. -/
def climb (combine : BinaryOp → α → α → α) (first : α) (rest : List (BinaryOp × α)) : α :=
  (climb? combine first rest).get (climb?_isSome combine first rest)

end Wdl.Grouping
