import Wdl.Ast.View
import Wdl.Proofs.FrontEnds

/-!
# Wdl.Proofs.Relocation -- the same expression at another place

Positions can be moved throughout a surface form and throughout an expression. What is built from a
surface form moves with it, and the view of an expression stays. So what a piece of text says does
not depend on where the piece stands.

* `Surface.Expr.move` and `Expr.move` apply a function on positions to every range of a surface form
  or an expression.
* `Expr.view_move` says that the content stays, and `Surface.Expr.range_move` that the range moves.
  The range of some surface forms is joined from those of their parts, so the latter is a recursion
  as well.
* `Build.expr_move` is the result. For each function that is called in building an expression there
  is a lemma before it, named after it: `applySign_move`, `nestChain_move` and so on.

Nothing is asked of the function on positions, not even that it keeps their order: no function of
the builder compares positions.
-/

namespace Wdl

/-- The range with its two ends moved. -/
def Range.move (f : Nat → Nat) (r : Range) : Range := ⟨f r.start, f r.stop⟩

variable {f : Nat → Nat}

@[simp] theorem Range.move_start (r : Range) : (r.move f).start = f r.start := rfl

@[simp] theorem Range.move_stop (r : Range) : (r.move f).stop = f r.stop := rfl

theorem Range.move_join (a b : Range) : (a.join b).move f = (a.move f).join (b.move f) := rfl

/-! ## Surface forms -/

namespace Surface

/-- The word at another place. -/
def Word.move (f : Nat → Nat) (w : Word) : Word := ⟨w.range.move f, w.text⟩

/-- The string literal at another place. -/
def Quoted.move (f : Nat → Nat) (q : Quoted) : Quoted := ⟨q.range.move f, q.raw⟩

/-- The numeric literal at another place. -/
def Number.move (f : Nat → Nat) (n : Number) : Number := ⟨n.range.move f, n.kind, n.chars⟩

/-- The key at another place. -/
def Key.move (f : Nat → Nat) : Key → Key
  | .word w => .word (w.move f)
  | .quoted q => .quoted (q.move f)

/-- The value of an option at another place. -/
def OptionValue.move (f : Nat → Nat) : OptionValue → OptionValue
  | .quoted q => .quoted (q.move f)
  | .number n => .number (n.move f)

/-- The option at another place. -/
def PlaceholderOption.move (f : Nat → Nat) (o : PlaceholderOption) : PlaceholderOption :=
  ⟨o.range.move f, o.name.move f, o.value.move f⟩

mutual

/-- The surface form at another place. -/
def Expr.move (f : Nat → Nat) : Expr → Expr
  | .boolean r value => .boolean (r.move f) value
  | .null r => .null (r.move f)
  | .number n => .number (n.move f)
  | .string r parts => .string (r.move f) (moveParts f parts)
  | .array r items => .array (r.move f) (moveExprs f items)
  | .pair r left right => .pair (r.move f) (left.move f) (right.move f)
  | .group r inner => .group (r.move f) (inner.move f)
  | .map r items => .map (r.move f) (movePairs f items)
  | .choice r a b c => .choice (r.move f) (a.move f) (b.move f) (c.move f)
  | .apply r function arguments => .apply (r.move f) (function.move f) (moveExprs f arguments)
  | .struct r name ms => .struct (r.move f) (name.move f) (moveMembers f ms)
  | .name w => .name (w.move f)
  | .access subject accessors => .access (subject.move f) (moveAccessors f accessors)
  | .signed signs operand => .signed (signs.map fun x => (x.1, x.2.move f)) (operand.move f)
  | .chain first rest => .chain (first.move f) (moveLinks f rest)

/-- Surface forms at another place. -/
def moveExprs (f : Nat → Nat) : List Expr → List Expr
  | [] => []
  | e :: rest => e.move f :: moveExprs f rest

/-- Keys and values of a map at another place. -/
def movePairs (f : Nat → Nat) : List (Expr × Expr) → List (Expr × Expr)
  | [] => []
  | (key, value) :: rest => (key.move f, value.move f) :: movePairs f rest

/-- Members of a struct at another place. -/
def moveMembers (f : Nat → Nat) : List (Key × Expr) → List (Key × Expr)
  | [] => []
  | (key, value) :: rest => (key.move f, value.move f) :: moveMembers f rest

/-- Links of a chain at another place. -/
def moveLinks (f : Nat → Nat) : List (BinaryOp × Expr) → List (BinaryOp × Expr)
  | [] => []
  | (op, e) :: rest => (op, e.move f) :: moveLinks f rest

/-- Accessors at another place. -/
def moveAccessors (f : Nat → Nat) : List Accessor → List Accessor
  | [] => []
  | .index r i :: rest => .index (r.move f) (i.move f) :: moveAccessors f rest
  | .member r name :: rest => .member (r.move f) (name.move f) :: moveAccessors f rest

/-- Parts of a string at another place. -/
def moveParts (f : Nat → Nat) : List Part → List Part
  | [] => []
  | .text r raw :: rest => .text (r.move f) raw :: moveParts f rest
  | .placeholder p :: rest => .placeholder (p.move f) :: moveParts f rest

/-- The placeholder at another place. -/
def Placeholder.move (f : Nat → Nat) : Placeholder → Placeholder
  | .mk r options e => .mk (r.move f) (options.map (PlaceholderOption.move f)) (e.move f)

end

theorem moveExprs_eq (es : List Expr) : moveExprs f es = es.map (Expr.move f) := by
  induction es with
  | nil => rfl
  | cons e es ih => rw [moveExprs, ih, List.map_cons]

theorem movePairs_eq (items : List (Expr × Expr)) :
    movePairs f items = items.map fun x => (x.1.move f, x.2.move f) := by
  induction items with
  | nil => rfl
  | cons x items ih => rw [movePairs, ih, List.map_cons]

theorem moveMembers_eq (ms : List (Key × Expr)) :
    moveMembers f ms = ms.map fun x => (x.1.move f, x.2.move f) := by
  induction ms with
  | nil => rfl
  | cons x ms ih => rw [moveMembers, ih, List.map_cons]

theorem moveLinks_eq (links : List (BinaryOp × Expr)) :
    moveLinks f links = links.map fun x => (x.1, x.2.move f) := by
  induction links with
  | nil => rfl
  | cons x links ih => rw [moveLinks, ih, List.map_cons]

theorem rangeThrough_move (r : Range) (as : List Range) :
    (rangeThrough r as).move f = rangeThrough (r.move f) (as.map (Range.move f)) := by
  simp only [rangeThrough, List.getLast?_map]
  cases as.getLast? <;> rfl

theorem accessorRanges_move (as : List Accessor) :
    (moveAccessors f as).map Accessor.range = (as.map Accessor.range).map (Range.move f) := by
  induction as with
  | nil => rfl
  | cons a as ih =>
    cases a with
    | index r i => exact congrArg (r.move f :: ·) ih
    | member r name => exact congrArg (r.move f :: ·) ih

mutual

/-- The range of a surface form moves with it. -/
theorem Expr.range_move : (e : Expr) → (e.move f).range = e.range.move f
  | .boolean _ _ | .null _ | .number _ | .string _ _ | .array _ _ | .pair _ _ _ | .group _ _
  | .map _ _ | .choice _ _ _ _ | .apply _ _ _ | .struct _ _ _ | .name _ => by
    simp [Expr.move, Expr.range, Number.move, Word.move]
  | .access subject accessors => by
    rw [Expr.move, Expr.range, Expr.range, rangeThrough_move, Expr.range_move subject,
      accessorRanges_move]
  | .signed [] operand => Expr.range_move operand
  | .signed ((op, r) :: signs) operand => by
    simp only [Expr.move, Expr.range, List.map_cons, Expr.range_move operand]
    rfl
  | .chain first rest => by
    rw [Expr.move, Expr.range, Expr.range, rangeThrough_move, Expr.range_move first,
      operandRanges_move rest]

theorem operandRanges_move : (links : List (BinaryOp × Expr)) →
    Expr.operandRanges (moveLinks f links) = (Expr.operandRanges links).map (Range.move f)
  | [] => rfl
  | (_, e) :: links => by
    simp only [moveLinks, Expr.operandRanges, List.map_cons, Expr.range_move e,
      operandRanges_move links]

end

end Surface

/-! ## Expressions -/

mutual

/-- The expression at another place. -/
def Expr.move (f : Nat → Nat) : Expr → Expr
  | .boolean r value => .boolean (r.move f) value
  | .int r value radix => .int (r.move f) value radix
  | .float r value => .float (r.move f) value
  | .null r => .null (r.move f)
  | .string r parts => .string (r.move f) (moveParts f parts)
  | .array r items => .array (r.move f) (moveExprs f items)
  | .pair r left right => .pair (r.move f) (left.move f) (right.move f)
  | .map r items => .map (r.move f) (movePairs f items)
  | .struct r ms name => .struct (r.move f) (moveMembers f ms) name
  | .ifThenElse r a b c => .ifThenElse (r.move f) (a.move f) (b.move f) (c.move f)
  | .ident r name => .ident (r.move f) name
  | .get r e member => .get (r.move f) (e.move f) member
  | .index r e i => .index (r.move f) (e.move f) (i.move f)
  | .unary r op e => .unary (r.move f) op (e.move f)
  | .binary r op left right => .binary (r.move f) op (left.move f) (right.move f)
  | .apply r function arguments => .apply (r.move f) function (moveExprs f arguments)

/-- Expressions at another place. -/
def moveExprs (f : Nat → Nat) : List Expr → List Expr
  | [] => []
  | e :: rest => e.move f :: moveExprs f rest

/-- Keys and values of a map at another place. -/
def movePairs (f : Nat → Nat) : List (Expr × Expr) → List (Expr × Expr)
  | [] => []
  | (key, value) :: rest => (key.move f, value.move f) :: movePairs f rest

/-- Members of a struct at another place. -/
def moveMembers (f : Nat → Nat) : List (Text × Expr) → List (Text × Expr)
  | [] => []
  | (key, value) :: rest => (key, value.move f) :: moveMembers f rest

/-- Parts of a string at another place. -/
def moveParts (f : Nat → Nat) : List Part → List Part
  | [] => []
  | .text text :: rest => .text text :: moveParts f rest
  | .placeholder p :: rest => .placeholder (p.move f) :: moveParts f rest

/-- The placeholder at another place. -/
def Placeholder.move (f : Nat → Nat) : Placeholder → Placeholder
  | .mk r options e => .mk (r.move f) options (e.move f)

end

theorem Expr.range_move (e : Expr) : (e.move f).range = e.range.move f := by
  cases e <;> simp [Expr.move, Expr.range]

theorem Expr.withRange_move (e : Expr) (r : Range) :
    (e.withRange r).move f = (e.move f).withRange (r.move f) := by
  cases e <;> simp [Expr.move, Expr.withRange]

mutual

/-- What an expression holds does not depend on where it is. -/
theorem Expr.view_move : (e : Expr) → (e.move f).view = e.view
  | .boolean _ _ | .int _ _ _ | .float _ _ | .null _ | .ident _ _ => by
    simp [Expr.move, Expr.view]
  | .string _ parts => by simp [Expr.move, Expr.view, viewParts_move parts]
  | .array _ items => by simp [Expr.move, Expr.view, viewExprs_move items]
  | .pair _ left right => by
    simp [Expr.move, Expr.view, Expr.view_move left, Expr.view_move right]
  | .map _ items => by simp [Expr.move, Expr.view, viewPairs_move items]
  | .struct _ ms _ => by simp [Expr.move, Expr.view, viewMembers_move ms]
  | .ifThenElse _ a b c => by
    simp [Expr.move, Expr.view, Expr.view_move a, Expr.view_move b, Expr.view_move c]
  | .get _ e _ => by simp [Expr.move, Expr.view, Expr.view_move e]
  | .index _ e i => by simp [Expr.move, Expr.view, Expr.view_move e, Expr.view_move i]
  | .unary _ _ e => by simp [Expr.move, Expr.view, Expr.view_move e]
  | .binary _ _ left right => by
    simp [Expr.move, Expr.view, Expr.view_move left, Expr.view_move right]
  | .apply _ _ arguments => by simp [Expr.move, Expr.view, viewExprs_move arguments]

theorem viewExprs_move : (es : List Expr) → viewExprs (moveExprs f es) = viewExprs es
  | [] => rfl
  | e :: es => by simp [moveExprs, viewExprs, Expr.view_move e, viewExprs_move es]

theorem viewPairs_move : (items : List (Expr × Expr)) →
    viewPairs (movePairs f items) = viewPairs items
  | [] => rfl
  | (key, value) :: items => by
    simp [movePairs, viewPairs, Expr.view_move key, Expr.view_move value, viewPairs_move items]

theorem viewMembers_move : (ms : List (Text × Expr)) →
    viewMembers (moveMembers f ms) = viewMembers ms
  | [] => rfl
  | (_, value) :: ms => by
    simp [moveMembers, viewMembers, Expr.view_move value, viewMembers_move ms]

theorem viewParts_move : (parts : List Part) → viewParts (moveParts f parts) = viewParts parts
  | [] => rfl
  | .text _ :: parts => by simp [moveParts, viewParts, viewParts_move parts]
  | .placeholder p :: parts => by
    simp [moveParts, viewParts, Placeholder.view_move p, viewParts_move parts]

theorem Placeholder.view_move : (p : Placeholder) → (p.move f).view = p.view
  | .mk _ _ e => by simp [Placeholder.move, Placeholder.view, Expr.view_move e]

end

/-! ## Building

Of a function that can fail, the lemma says that what it gives moves along whenever it gives
something; of the others, that they commute with moving. -/

namespace Build

theorem checkName_move {rules : Rules} {w : Surface.Word} (h : checkName rules w = .ok ()) :
    checkName rules (w.move f) = .ok () := by
  unfold checkName at h ⊢
  split at h
  · cases h
  · rename_i allowed
    exact if_neg allowed

theorem checkMember_move {rules : Rules} {w : Surface.Word} (h : checkMember rules w = .ok ()) :
    checkMember rules (w.move f) = .ok () := by
  unfold checkMember at h ⊢
  split at h
  · rename_i member
    exact if_pos member
  · rename_i other
    rw [if_neg (show ¬ pairMembers.contains (w.move f).text from other)]
    exact checkName_move h

theorem structName_move {rules : Rules} {w : Surface.Word} {name : Option String}
    (h : structName rules w = .ok name) : structName rules (w.move f) = .ok name := by
  unfold structName at h ⊢
  split at h
  · rename_i object
    cases h
    exact if_pos object
  · rename_i other
    rw [if_neg (show (w.move f).text ≠ objectWord from other)]
    simp only [bind_eq_ok, pure_eq_ok] at h ⊢
    obtain ⟨⟨⟩, allowed, rfl⟩ := h
    exact ⟨(), checkName_move allowed, rfl⟩

theorem decodeText_move {N : CharacterNames} {r r' : Range} {raw : List Char} {text : Text}
    (h : decodeText N r raw = .ok text) : decodeText N r' raw = .ok text := by
  unfold decodeText at h ⊢
  split at h
  · exact h
  · exact (violate_ne_ok.1 h).elim

theorem intLiteral_move {r r' : Range} {radix : Radix} {text : List Char} {n : Nat}
    (h : intLiteral r radix text = .ok n) : intLiteral r' radix text = .ok n := by
  unfold intLiteral at h ⊢
  split at h
  · exact (violate_ne_ok.1 h).elim
  · rename_i few
    rw [if_neg few]
    dsimp only at h ⊢
    split at h
    · exact (violate_ne_ok.1 h).elim
    · rename_i small
      rw [if_neg small]
      exact h

theorem numberValue_move {n : Surface.Number} {v : NumberValue} (h : numberValue n = .ok v) :
    numberValue (n.move f) = .ok v := by
  obtain ⟨r, kind, chars⟩ := n
  cases kind with
  | float => exact h
  | hexadecimal | octal | decimal =>
    simp only [numberValue, Surface.Number.move, bind_eq_ok, pure_eq_ok] at h ⊢
    obtain ⟨value, hvalue, rfl⟩ := h
    exact ⟨value, intLiteral_move hvalue, rfl⟩

theorem NumberValue.expr_move (v : NumberValue) (r : Range) :
    (v.expr r).move f = v.expr (r.move f) := by
  cases v <;> simp [NumberValue.expr, Expr.move]

theorem applySign_move (r : Range) (op : UnaryOp) (e : Expr) :
    (applySign r op e).move f = applySign (r.move f) op (e.move f) := by
  cases op <;> cases e <;> simp [applySign, Expr.move]

theorem nestSigns_move (stop : Nat) (signs : List (UnaryOp × Range)) (e : Expr) :
    (nestSigns stop signs e).move f =
      nestSigns (f stop) (signs.map fun x => (x.1, x.2.move f)) (e.move f) := by
  induction signs with
  | nil => rfl
  | cons sign signs ih =>
    obtain ⟨op, r⟩ := sign
    rw [nestSigns, applySign_move, ih]
    rfl

theorem applySigns_move (fe : FrontEnd) (whole : Range) (signs : List (UnaryOp × Range))
    (e : Expr) : (applySigns fe whole signs e).move f =
      applySigns fe (whole.move f) (signs.map fun x => (x.1, x.2.move f)) (e.move f) := by
  rw [applySigns_frontEnd fe .tree]
  exact nestSigns_move whole.stop signs e

/-- The access at another place. -/
def Access.move (f : Nat → Nat) : Access → Access
  | .index r i => .index (r.move f) (i.move f)
  | .member r name => .member (r.move f) name

theorem nestAccesses_move (start : Nat) (subject : Expr) (as : List Access) :
    (nestAccesses start subject as).move f =
      nestAccesses (f start) (subject.move f) (as.map (Access.move f)) := by
  induction as generalizing subject with
  | nil => rfl
  | cons a as ih =>
    rw [nestAccesses, List.foldl_cons]
    refine (ih _).trans ?_
    cases a <;> rfl

theorem foldAccesses_move (subject : Expr) (as : List Access) :
    (foldAccesses subject as).move f = foldAccesses (subject.move f) (as.map (Access.move f)) := by
  rw [foldAccesses_eq, foldAccesses_eq, nestAccesses_move, Expr.range_move]
  rfl

theorem applyAccesses_move (fe : FrontEnd) (start : Nat) (subject : Expr) (as : List Access) :
    (applyAccesses fe start subject as).move f =
      applyAccesses fe (f start) (subject.move f) (as.map (Access.move f)) := by
  cases fe with
  | tree => exact nestAccesses_move start subject as
  | flat => exact foldAccesses_move subject as

/-- The placed operand at another place. -/
def Placed.move (f : Nat → Nat) (x : Placed) : Placed := (x.1.move f, x.2.move f)

theorem nestChain_move (fe : FrontEnd) (first : Placed) (rest : List (BinaryOp × Placed)) :
    (nestChain fe first rest).move f =
      nestChain fe (first.move f) (rest.map fun link => (link.1, link.2.move f)) := by
  cases fe with
  | tree =>
    have moved := Grouping.Tree.fold_map (c := combinePlaced) (d := combinePlaced)
      (f := Placed.move f) (fun _ _ _ => by simp [combinePlaced, Placed.move, Expr.move,
        Range.move_join]) (Grouping.treeOf first rest)
    rw [Grouping.treeOf_map] at moved
    simp only [nestChain, Grouping.layered_eq_fold, ← moved]
    rfl
  | flat =>
    have moved := Grouping.Tree.fold_map (c := combineBuilt) (d := combineBuilt)
      (f := Expr.move f) (fun _ _ _ => by simp [combineBuilt, Expr.move, Expr.range_move,
        Range.move_join]) (Grouping.treeOf first.2 (rest.map fun link => (link.1, link.2.2)))
    rw [Grouping.treeOf_map] at moved
    simp only [nestChain, Grouping.climb_eq_fold, moved, List.map_map]
    rfl

theorem optionText_move {N : CharacterNames} {v : Surface.OptionValue} {text : Text}
    (h : optionText N v = .ok text) : optionText N (v.move f) = .ok text := by
  cases v with
  | quoted q => exact decodeText_move h
  | number n =>
    simp only [optionText, Surface.OptionValue.move, bind_eq_ok, pure_eq_ok] at h ⊢
    obtain ⟨value, hvalue, rfl⟩ := h
    exact ⟨value, numberValue_move hvalue, rfl⟩

/-- The entry with its range moved. -/
def moveEntry (f : Nat → Nat) {α : Type} (x : String × α × Range) : String × α × Range :=
  (x.1, x.2.1, x.2.2.move f)

theorem placeholderOption_move {N : CharacterNames} {o : Surface.PlaceholderOption}
    {x : String × Text × Range} (h : placeholderOption N o = .ok x) :
    placeholderOption N (o.move f) = .ok (moveEntry f x) := by
  obtain ⟨value, hvalue, h⟩ := bind_eq_ok.1 h
  refine bind_eq_ok.2 ⟨value, optionText_move hvalue, ?_⟩
  split at h
  · rename_i known
    cases h
    exact if_pos known
  · exact (violate_ne_ok.1 h).elim

/-- The entry with its value changed. -/
def changeEntry {α β : Type} (m : α → β) (x : String × α) : String × β := (x.1, m x.2)

/-- The entry with its value changed and its range moved. -/
def placeEntry {α β : Type} (f : Nat → Nat) (m : α → β) (x : String × α × Range) :
    String × β × Range := (x.1, m x.2.1, x.2.2.move f)

/-- Which keys there are does not depend on the values. -/
theorem any_key_change {α β : Type} (m : α → β) (key : String) (entries : List (String × α)) :
    (entries.map (changeEntry m)).any (fun entry => entry.1 == key) =
      entries.any fun entry => entry.1 == key := by
  rw [List.any_map]
  rfl

/-- That keys are distinct depends neither on values nor on ranges. -/
theorem distinct_place {α β : Type} (m : α → β) {repeated : String → Violation}
    {done : List (String × α)} {xs : List (String × α × Range)} {ys : List (String × α)}
    (h : distinct repeated done xs = .ok ys) :
    distinct repeated (done.map (changeEntry m)) (xs.map (placeEntry f m)) =
      .ok (ys.map (changeEntry m)) := by
  induction xs generalizing done with
  | nil =>
    cases h
    rfl
  | cons x xs ih =>
    obtain ⟨key, value, r⟩ := x
    unfold distinct at h
    split at h
    · exact (violate_ne_ok.1 h).elim
    · rename_i fresh
      have rest := ih h
      rw [List.map_append] at rest
      rw [List.map_cons, placeEntry, distinct, any_key_change, if_neg fresh]
      exact rest

theorem distinct_move {α : Type} {repeated : String → Violation} {done : List (String × α)}
    {xs : List (String × α × Range)} {ys : List (String × α)}
    (h : distinct repeated done xs = .ok ys) :
    distinct repeated done (xs.map (moveEntry f)) = .ok ys := by
  have same : ∀ entries : List (String × α), entries.map (changeEntry id) = entries :=
    fun entries => List.map_id entries
  have placed := distinct_place (f := f) id h
  rw [same, same] at placed
  exact placed

/-- The raw part at another place. -/
def RawPart.move (f : Nat → Nat) : RawPart → RawPart
  | .text r raw => .text (r.move f) raw
  | .placeholder p => .placeholder (p.move f)

theorem decodeParts_move {N : CharacterNames} {raw : List RawPart} {parts : List Part}
    (h : decodeParts N raw = .ok parts) :
    decodeParts N (raw.map (RawPart.move f)) = .ok (moveParts f parts) := by
  induction raw generalizing parts with
  | nil => cases h; rfl
  | cons p raw ih =>
    cases p with
    | text r cs =>
      simp only [decodeParts, bind_eq_ok, pure_eq_ok] at h
      obtain ⟨text, htext, rest, hrest, rfl⟩ := h
      simp only [List.map_cons, RawPart.move, decodeParts, bind_eq_ok, pure_eq_ok]
      exact ⟨text, decodeText_move htext, _, ih hrest, rfl⟩
    | placeholder p =>
      simp only [decodeParts, bind_eq_ok, pure_eq_ok] at h
      obtain ⟨rest, hrest, rfl⟩ := h
      simp only [List.map_cons, RawPart.move, decodeParts, bind_eq_ok, pure_eq_ok]
      exact ⟨_, ih hrest, rfl⟩

variable (rules : Rules)

mutual

/-- What is built from a surface form moves with it. -/
theorem expr_move : (σ : Surface.Expr) → {e : Expr} → expr rules σ = .ok e →
    expr rules (σ.move f) = .ok (e.move f)
  | .boolean _ _, e, h | .null _, e, h => by
    cases h
    rfl
  | .number n, e, h => by
    obtain ⟨v, hv, rfl⟩ := by simpa [expr] using h
    simp [Surface.Expr.move, expr, numberValue_move hv, NumberValue.expr_move]
    rfl
  | .string r parts, e, h => by
    obtain ⟨raw, hraw, ps, hps, rfl⟩ := by simpa [expr] using h
    simp [Surface.Expr.move, expr, rawParts_move parts hraw, decodeParts_move hps, Expr.move]
  | .array _ items, e, h => by
    obtain ⟨es, hes, rfl⟩ := by simpa [expr] using h
    simp [Surface.Expr.move, expr, exprs_move items hes, Expr.move]
  | .pair _ left right, e, h => by
    obtain ⟨a, ha, b, hb, rfl⟩ := by simpa [expr] using h
    simp [Surface.Expr.move, expr, expr_move left ha, expr_move right hb, Expr.move]
  | .group r inner, e, h => by
    obtain ⟨a, ha, rfl⟩ := by simpa [expr] using h
    simp [Surface.Expr.move, expr, expr_move inner ha, Expr.withRange_move]
  | .map _ items, e, h => by
    obtain ⟨es, hes, rfl⟩ := by simpa [expr] using h
    simp [Surface.Expr.move, expr, pairs_move items hes, Expr.move]
  | .choice _ a b c, e, h => by
    obtain ⟨x, hx, y, hy, z, hz, rfl⟩ := by simpa [expr] using h
    simp [Surface.Expr.move, expr, expr_move a hx, expr_move b hy, expr_move c hz, Expr.move]
  | .apply _ _ arguments, e, h => by
    obtain ⟨es, hes, rfl⟩ := by simpa [expr] using h
    simp [Surface.Expr.move, expr, exprs_move arguments hes, Expr.move, Surface.Word.move]
  | .struct _ _ ms, e, h => by
    obtain ⟨es, hes, name, hname, rfl⟩ := by simpa [expr] using h
    simp [Surface.Expr.move, expr, members_move ms hes, structName_move hname, Expr.move]
  | .name w, e, h => by
    obtain ⟨⟨⟨⟩, allowed⟩, rfl⟩ := by simpa [expr] using h
    have allowed' := checkName_move (f := f) allowed
    simp [Surface.Expr.move, expr, allowed', Expr.move]
    exact ⟨rfl, rfl⟩
  | .access subject accessors, e, h => by
    obtain ⟨built, hbuilt, as, has, rfl⟩ := by simpa [expr] using h
    simp [Surface.Expr.move, expr, expr_move subject hbuilt, accesses_move accessors has,
      applyAccesses_move, Surface.Expr.range_move]
  | .signed signs operand, e, h => by
    obtain ⟨built, hbuilt, rfl⟩ := by simpa [expr] using h
    rw [applySigns_move, ← Surface.Expr.range_move]
    simp [Surface.Expr.move, expr, expr_move operand hbuilt]
  | .chain first rest, e, h => by
    obtain ⟨built, hbuilt, placed, hplaced, rfl⟩ := by simpa [expr] using h
    rw [nestChain_move]
    simp [Surface.Expr.move, expr, expr_move first hbuilt, operands_move rest hplaced,
      Surface.Expr.range_move, Placed.move]

theorem exprs_move : (σs : List Surface.Expr) → {es : List Expr} → exprs rules σs = .ok es →
    exprs rules (Surface.moveExprs f σs) = .ok (moveExprs f es)
  | [], es, h => by cases h; rfl
  | σ :: σs, es, h => by
    obtain ⟨e, he, rest, hrest, rfl⟩ := by simpa [exprs] using h
    simp [Surface.moveExprs, exprs, expr_move σ he, exprs_move σs hrest, moveExprs]

theorem pairs_move : (items : List (Surface.Expr × Surface.Expr)) → {es : List (Expr × Expr)} →
    pairs rules items = .ok es → pairs rules (Surface.movePairs f items) = .ok (movePairs f es)
  | [], es, h => by cases h; rfl
  | (key, value) :: items, es, h => by
    obtain ⟨k, hk, v, hv, rest, hrest, rfl⟩ := by simpa [pairs] using h
    simp [Surface.movePairs, pairs, expr_move key hk, expr_move value hv, pairs_move items hrest,
      movePairs]

theorem members_move : (ms : List (Surface.Key × Surface.Expr)) → {es : List (Text × Expr)} →
    members rules ms = .ok es → members rules (Surface.moveMembers f ms) = .ok (moveMembers f es)
  | [], es, h => by cases h; rfl
  | (.quoted q, value) :: ms, es, h => by
    obtain ⟨key, hkey, v, hv, rest, hrest, rfl⟩ := by simpa [members] using h
    have key' : quotedText rules.names (q.move f) = .ok key := decodeText_move hkey
    simp [Surface.moveMembers, Surface.Key.move, members, key', expr_move value hv,
      members_move ms hrest, moveMembers]
  | (.word w, value) :: ms, es, h => by
    obtain ⟨v, hv, ⟨⟨⟩, allowed⟩, rest, hrest, rfl⟩ := by simpa [members] using h
    have allowed' := checkName_move (f := f) allowed
    simp [Surface.moveMembers, Surface.Key.move, members, allowed', expr_move value hv,
      members_move ms hrest, moveMembers]
    rfl

theorem operands_move : (links : List (BinaryOp × Surface.Expr)) →
    {placed : List (BinaryOp × Placed)} → operands rules links = .ok placed →
    operands rules (Surface.moveLinks f links) =
      .ok (placed.map fun link => (link.1, link.2.move f))
  | [], placed, h => by cases h; rfl
  | (op, σ) :: links, placed, h => by
    obtain ⟨e, he, rest, hrest, rfl⟩ := by simpa [operands] using h
    simp [Surface.moveLinks, operands, expr_move σ he, operands_move links hrest,
      Surface.Expr.range_move, Placed.move]

theorem accesses_move : (accessors : List Surface.Accessor) → {as : List Access} →
    accesses rules accessors = .ok as →
    accesses rules (Surface.moveAccessors f accessors) = .ok (as.map (Access.move f))
  | [], as, h => by cases h; rfl
  | .index _ i :: accessors, as, h => by
    obtain ⟨e, he, rest, hrest, rfl⟩ := by simpa [accesses] using h
    simp [Surface.moveAccessors, accesses, expr_move i he, accesses_move accessors hrest,
      Access.move]
  | .member _ name :: accessors, as, h => by
    obtain ⟨⟨⟨⟩, allowed⟩, rest, hrest, rfl⟩ := by simpa [accesses] using h
    have allowed' := checkMember_move (f := f) allowed
    simp [Surface.moveAccessors, accesses, allowed', accesses_move accessors hrest, Access.move]
    rfl

theorem rawParts_move : (parts : List Surface.Part) → {raw : List RawPart} →
    rawParts rules parts = .ok raw →
    rawParts rules (Surface.moveParts f parts) = .ok (raw.map (RawPart.move f))
  | [], raw, h => by cases h; rfl
  | .text _ _ :: parts, raw, h => by
    obtain ⟨rest, hrest, rfl⟩ := by simpa [rawParts] using h
    simp [Surface.moveParts, rawParts, rawParts_move parts hrest, RawPart.move]
  | .placeholder p :: parts, raw, h => by
    obtain ⟨P, hP, rest, hrest, rfl⟩ := by simpa [rawParts] using h
    simp [Surface.moveParts, rawParts, placeholder_move p hP, rawParts_move parts hrest,
      RawPart.move]

theorem placeholder_move : (p : Surface.Placeholder) → {P : Placeholder} →
    placeholder rules p = .ok P → placeholder rules (p.move f) = .ok (P.move f)
  | .mk r options σ, P, h => by
    obtain ⟨os, hos, e, he, known, hknown, rfl⟩ := by simpa [placeholder] using h
    have moved : (options.map (Surface.PlaceholderOption.move f)).mapM
        (placeholderOption rules.names) = .ok (os.map (moveEntry f)) := by
      refine mapM_eq_ok.2 ?_
      rw [List.forall₂_map_left_iff, List.forall₂_map_right_iff]
      exact (mapM_eq_ok.1 hos).imp fun _ _ => placeholderOption_move
    simp [Surface.Placeholder.move, placeholder, moved, expr_move σ he, distinct_move hknown,
      Placeholder.move]

end

end Build

end Wdl
