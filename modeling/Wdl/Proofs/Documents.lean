import Wdl.Parse
import Wdl.Proofs.Assembly
import Wdl.Proofs.Placement
import Wdl.Proofs.Reading

/-!
# Wdl.Proofs.Documents -- a document is laid out along its text

Every rule of the grammar goes forwards, and what is built from what it returns is laid out between
the place where it starts and the place where it ends. One lemma for each way to put parsers
together and one for each rule carry this from the tokens up to the whole document.

* `Reaches` says of a parser that it goes forwards, and relates what it returns to the two places.
  `Yields` is the relation that is used most: whatever is built from the result, its nodes are
  `Laid` between them.
* `Yields.cons` puts two stretches together. From it come the lemmas about lists, such as
  `many_reaches` and `commaList_reaches`. `many_induction` is the induction for loops of which
  something else is shown.
* `expr_reaches`, `typeExpr_reaches`, `command_reaches`, `task_reaches` and so on are named after
  the parsers that they are about. Where a rule calls itself, as those of types, of meta values and
  of workflow bodies do, the lemma is by induction on the fuel.
* `document_sited` and `expr_sited` are what remains of it all: each node of a parsed text is
  `Sited` in it.

The end of a document is shown to be in its text, and not behind the line feed that is added to it:
`Closed` says that no line break ends at a position, and whatever ends an element ends so. Only
literal text can end in a line break, and behind that there always is a closing quote or the closing
symbol of a command.
-/

namespace Wdl.Parser

variable {fe : FrontEnd} {cs : List Char} {rules : Rules} {s s' : State} {α β : Type}

/-! ## Parsers that go forwards -/

/-- A parser that goes forwards, and what it returns is related to where it starts and ends. -/
def Reaches (fe : FrontEnd) (cs : List Char) (p : Parser α) (R : Nat → Nat → α → Prop) : Prop :=
  ∀ {s s' : State} {x : α}, s.Sound fe cs → p s = .ok (x, s') →
    s'.Sound fe cs ∧ s.Before s' ∧ R s.front s'.back x

/-- A weaker relation holds as well. -/
theorem Reaches.imp {p : Parser α} {R S : Nat → Nat → α → Prop} (h : Reaches fe cs p R)
    (imp : ∀ {a b x}, R a b x → S a b x) : Reaches fe cs p S := by
  intro s s' x sound hp
  obtain ⟨sound', before, related⟩ := h sound hp
  exact ⟨sound', before, imp related⟩

/-- What a parser returns may be wrapped: no token more is taken. -/
theorem Reaches.wrapped {p : Parser α} {f : α → β} {R : Nat → Nat → α → Prop}
    {S : Nat → Nat → β → Prop} (h : Reaches fe cs p R) (imp : ∀ {a b x}, R a b x → S a b (f x)) :
    Reaches fe cs (do return f (← p)) S := by
  intro s s' y sound hp
  obtain ⟨x, u, hx, hp⟩ := bind_eq_ok.1 hp
  obtain ⟨rfl, rfl⟩ := pure_eq_ok.1 hp
  obtain ⟨sound', before, related⟩ := h sound hx
  exact ⟨sound', before, imp related⟩

/-- What is built from a surface form is laid out between two positions. -/
def Yields (fe : FrontEnd) (rules : Rules) (cs : List Char) (B : α → β → Prop)
    (nodes : β → List Node) (a b : Nat) (x : α) : Prop :=
  ∀ y, B x y → Laid fe rules cs a b (nodes y)

/-- One token is a step forwards. -/
theorem Run.forward {t : Token} {after : Expect} (sound : s.Sound fe cs)
    (run : Run fe.next s [⟨t, after⟩] s') :
    s'.Sound fe cs ∧ s.Before s' ∧ s.front = t.start ∧ s'.back = t.stop ∧ t.start < t.stop := by
  obtain ⟨on, front, back, sound'⟩ := Run.step_sound sound run
  exact ⟨sound', (Run.sound sound run).2, front, back, on.pos⟩

/-- The range of a token that is taken. -/
theorem Run.range_eq {t : Token} {after : Expect} (sound : s.Sound fe cs)
    (run : Run fe.next s [⟨t, after⟩] s') : t.range = ⟨s.front, s'.back⟩ := by
  obtain ⟨-, -, front, back, -⟩ := Run.forward sound run
  rw [front, back]
  rfl

/-- No line break ends at this position of a text. -/
def Closed (cs : List Char) (b : Nat) : Prop :=
  ∀ c, (cs.take b).getLast? = some c → Scan.isBreak c = false

/-- Only literal text may end with a line break. -/
theorem Run.closed {t : Token} {after : Expect} (sound : s.Sound fe cs)
    (run : Run fe.next s [⟨t, after⟩] s') (plain : isLiteral t.kind = false) :
    Closed cs s'.back := by
  obtain ⟨on, -, back, -⟩ := Run.step_sound sound run
  have pos := on.pos
  have nonempty : t.chars ≠ [] := by
    rintro empty
    simp [Token.stop, empty] at pos
  intro c hc
  rw [back, Token.stop, List.take_add, ← on.eq, List.getLast?_append_of_ne_nil _ nonempty] at hc
  exact on.ends plain c hc

/-- Behind a token after which an expression is looked for, one may start. -/
theorem Run.started_single {t : Token} (sound : s.Sound fe cs)
    (run : Run fe.next s [⟨t, Expect.expr⟩] s') : s'.Started fe cs := by
  have opens : Opens false [⟨t, Expect.expr⟩] := Opens.single (by simp [openings])
  exact Run.started sound run opens (by rintro ⟨⟩)

/-! ## Lists of items

Loops take as many items as they can. Each item is behind the one before, so their nodes are laid
out one after the other. -/

section Lists

variable {item : Parser α} {B : α → β → Prop} {nodes : β → List Node}

/-- Two stretches one behind the other. -/
theorem Yields.cons {t : State} {x : α} {xs : List α} (sound : t.Sound fe cs)
    (first : s.Before t) (rest : t.Before s')
    (hx : Yields fe rules cs B nodes s.front t.back x)
    (hxs : Yields fe rules cs (List.Forall₂ B) (List.flatMap nodes) t.front s'.back xs) :
    Yields fe rules cs (List.Forall₂ B) (List.flatMap nodes) s.front s'.back (x :: xs) := by
  intro ys h
  cases h with
  | cons hy hys => exact (hx _ hy).append (hxs _ hys) first.front sound.ordered rest.back

/-- Nothing is laid out anywhere. -/
theorem Yields.nil {a b : Nat} :
    Yields fe rules cs (List.Forall₂ B) (List.flatMap nodes) a b ([] : List α) := by
  intro ys h
  cases h
  exact Laid.nil

/-- What is laid out between two places is laid out between places around them. -/
theorem Yields.widen {a b c d : Nat} {x : α} (h : Yields fe rules cs B nodes b c x) (ab : a ≤ b)
    (cd : c ≤ d) : Yields fe rules cs B nodes a d x := by
  intro y hy
  exact (h y hy).widen ab cd

/-- What holds of no items and is kept by one more item in front holds of a list of items. -/
theorem many_induction {starts : Terminal → Bool} {P : State → State → List α → Prop}
    (nil : ∀ s, P s s [])
    (cons : ∀ {s t u x xs}, item s = .ok (x, t) → P t u xs → P s u (x :: xs)) {xs : List α}
    (h : many starts item s = .ok (xs, s')) : P s s' xs := by
  rw [many, remaining_bind] at h
  generalize s.cursor.rest.length + 1 = n at h
  induction n generalizing s xs with
  | zero =>
    obtain ⟨rfl, rfl⟩ := pure_eq_ok.1 h
    exact nil s
  | succ n ih =>
    simp only [manyUpTo, peek_bind] at h
    split at h
    · obtain ⟨x, t, hx, h⟩ := bind_eq_ok.1 h
      obtain ⟨rest, u, hrest, h⟩ := bind_eq_ok.1 h
      obtain ⟨rfl, rfl⟩ := pure_eq_ok.1 h
      exact cons hx (ih hrest)
    · obtain ⟨rfl, rfl⟩ := pure_eq_ok.1 h
      exact nil s

/-- Items one after the other, as in the sections of a task, are laid out in order. -/
theorem many_reaches (h : Reaches fe cs item (Yields fe rules cs B nodes))
    (starts : Terminal → Bool) :
    Reaches fe cs (many starts item)
      (Yields fe rules cs (List.Forall₂ B) (List.flatMap nodes)) := by
  intro s s' xs sound hm
  refine many_induction (P := fun s s' xs => s.Sound fe cs → s'.Sound fe cs ∧ s.Before s' ∧
    Yields fe rules cs (List.Forall₂ B) (List.flatMap nodes) s.front s'.back xs) ?_ ?_ hm sound
  · intro s sound
    exact ⟨sound, .refl _, Yields.nil⟩
  · intro s t u x xs hx more sound
    obtain ⟨soundt, st, first⟩ := h sound hx
    obtain ⟨soundu, tu, more⟩ := more soundt
    exact ⟨soundu, st.trans tu, Yields.cons soundt st tu first more⟩

/-- A list of items ends where the last of them does. -/
theorem many_stop {stop : α → Nat} {starts : Terminal → Bool} {xs : List α}
    (h : Reaches fe cs item fun _ b x => stop x = b) (sound : s.Sound fe cs)
    (hm : many starts item s = .ok (xs, s')) :
    s'.Sound fe cs ∧ s.Before s' ∧ (xs.getLast?.map stop).getD s.back = s'.back := by
  refine many_induction (P := fun s s' xs => s.Sound fe cs → s'.Sound fe cs ∧ s.Before s' ∧
    (xs.getLast?.map stop).getD s.back = s'.back) ?_ ?_ hm sound
  · intro s sound
    exact ⟨sound, .refl _, rfl⟩
  · intro s t u x xs hx more sound
    obtain ⟨soundt, st, end_⟩ := h sound hx
    obtain ⟨soundu, tu, more⟩ := more soundt
    refine ⟨soundu, st.trans tu, ?_⟩
    rw [List.getLast?_cons, ← more, ← end_]
    cases xs.getLast? <;> rfl

/-- No line break ends a list of items if none ends what is in front of it, nor any item. -/
theorem many_closed {starts : Terminal → Bool} {xs : List α}
    (h : ∀ {s s' x}, s.Sound fe cs → item s = .ok (x, s') → s'.Sound fe cs ∧ Closed cs s'.back)
    (sound : s.Sound fe cs) (closed : Closed cs s.back) (hm : many starts item s = .ok (xs, s')) :
    Closed cs s'.back := by
  refine many_induction (P := fun s s' _ => s.Sound fe cs → Closed cs s.back →
    Closed cs s'.back) ?_ ?_ hm sound closed
  · intro s _ closed
    exact closed
  · intro s t u x xs hx more sound _
    obtain ⟨soundt, closedt⟩ := h sound hx
    exact more soundt closedt

/-- One more item in front, perhaps behind a comma. -/
theorem cons_reaches {more : Parser (List α)} (h : Reaches fe cs item (Yields fe rules cs B nodes))
    (rest : Reaches fe cs more (Yields fe rules cs (List.Forall₂ B) (List.flatMap nodes)))
    {t : State} {xs : List α} (soundt : t.Sound fe cs) (st : s.Before t)
    (hm : (do let x ← item; let xs ← more; return x :: xs : Parser (List α)) t = .ok (xs, s')) :
    s'.Sound fe cs ∧ s.Before s' ∧
      Yields fe rules cs (List.Forall₂ B) (List.flatMap nodes) s.front s'.back xs := by
  obtain ⟨x, u, hx, hm⟩ := bind_eq_ok.1 hm
  obtain ⟨xs, v, hrest, hm⟩ := bind_eq_ok.1 hm
  obtain ⟨rfl, rfl⟩ := pure_eq_ok.1 hm
  obtain ⟨soundu, tu, first⟩ := h soundt hx
  obtain ⟨soundv, uv, more⟩ := rest soundu hrest
  have all := Yields.cons soundu tu uv first more
  exact ⟨soundv, st.trans (tu.trans uv), all.widen st.front (Nat.le_refl _)⟩

/-- More items behind commas, perhaps with a last comma, are laid out in order. -/
theorem moreUpTo_reaches (h : Reaches fe cs item (Yields fe rules cs B nodes)) (close : Symbol)
    (after : Expect) (n : Nat) :
    Reaches fe cs (moreUpTo fe.next close after item n)
      (Yields fe rules cs (List.Forall₂ B) (List.flatMap nodes)) := by
  induction n with
  | zero =>
    intro s s' xs sound hm
    obtain ⟨rfl, rfl⟩ := pure_eq_ok.1 hm
    exact ⟨sound, .refl _, Yields.nil⟩
  | succ n ih =>
    intro s s' xs sound hm
    rw [moreUpTo, optionalSymbol_bind] at hm
    rcases hm with ⟨comma, t, -, run, hm⟩ | ⟨-, hm⟩
    · obtain ⟨soundt, st, -, -, -⟩ := Run.forward sound run
      rw [sees_bind] at hm
      rcases hm with ⟨-, hm⟩ | ⟨-, hm⟩
      · -- the comma is the last one, and nothing is behind it
        obtain ⟨rfl, rfl⟩ := pure_eq_ok.1 hm
        exact ⟨soundt, st, Yields.nil⟩
      · exact cons_reaches h ih soundt st hm
    · obtain ⟨rfl, rfl⟩ := pure_eq_ok.1 hm
      exact ⟨sound, .refl _, Yields.nil⟩

/-- So are more items that may go without commas. -/
theorem looseUpTo_reaches (h : Reaches fe cs item (Yields fe rules cs B nodes)) (close : Symbol)
    (after : Expect) (n : Nat) :
    Reaches fe cs (looseUpTo fe.next close after item n)
      (Yields fe rules cs (List.Forall₂ B) (List.flatMap nodes)) := by
  induction n with
  | zero =>
    intro s s' xs sound hm
    obtain ⟨rfl, rfl⟩ := pure_eq_ok.1 hm
    exact ⟨sound, .refl _, Yields.nil⟩
  | succ n ih =>
    intro s s' xs sound hm
    rw [looseUpTo, optionalSymbol_bind] at hm
    rcases hm with ⟨comma, t, -, run, hm⟩ | ⟨-, hm⟩
    · obtain ⟨soundt, st, -, -, -⟩ := Run.forward sound run
      rw [sees_bind] at hm
      rcases hm with ⟨-, hm⟩ | ⟨-, hm⟩
      · obtain ⟨rfl, rfl⟩ := pure_eq_ok.1 hm
        exact ⟨soundt, st, Yields.nil⟩
      · exact cons_reaches h ih soundt st hm
    · -- without a comma, a name starts the next item
      rw [sees_bind] at hm
      rcases hm with ⟨-, hm⟩ | ⟨-, hm⟩
      · exact cons_reaches h ih sound (.refl _) hm
      · obtain ⟨rfl, rfl⟩ := pure_eq_ok.1 hm
        exact ⟨sound, .refl _, Yields.nil⟩

/-- Items up to a closing symbol: none, or a first one and more. -/
theorem items_reaches (h : Reaches fe cs item (Yields fe rules cs B nodes)) {close : Symbol}
    {more : Nat → Parser (List α)} (rest : ∀ n,
      Reaches fe cs (more n) (Yields fe rules cs (List.Forall₂ B) (List.flatMap nodes))) :
    Reaches fe cs (do
      if ← sees (.symbol close) then return []
      else
        let x ← item
        let xs ← more (← remaining)
        return x :: xs) (Yields fe rules cs (List.Forall₂ B) (List.flatMap nodes)) := by
  intro s s' xs sound hm
  rw [sees_bind] at hm
  rcases hm with ⟨-, hm⟩ | ⟨-, hm⟩
  · obtain ⟨rfl, rfl⟩ := pure_eq_ok.1 hm
    exact ⟨sound, .refl _, Yields.nil⟩
  · obtain ⟨x, t, hx, hm⟩ := bind_eq_ok.1 hm
    rw [remaining_bind] at hm
    obtain ⟨xs, u, hrest, hm⟩ := bind_eq_ok.1 hm
    obtain ⟨rfl, rfl⟩ := pure_eq_ok.1 hm
    obtain ⟨soundt, st, first⟩ := h sound hx
    obtain ⟨soundu, tu, more⟩ := rest _ soundt hrest
    exact ⟨soundu, st.trans tu, Yields.cons soundt st tu first more⟩

theorem commaList_reaches (h : Reaches fe cs item (Yields fe rules cs B nodes)) (close : Symbol)
    (after : Expect) :
    Reaches fe cs (commaList fe.next close after item)
      (Yields fe rules cs (List.Forall₂ B) (List.flatMap nodes)) :=
  items_reaches h (moreUpTo_reaches h close after)

theorem looseList_reaches (h : Reaches fe cs item (Yields fe rules cs B nodes)) (close : Symbol)
    (after : Expect) :
    Reaches fe cs (looseList fe.next close after item)
      (Yields fe rules cs (List.Forall₂ B) (List.flatMap nodes)) :=
  items_reaches h (looseUpTo_reaches h close after)

end Lists

/-! ## Expressions

Of expressions all is known from their scripts, in `Wdl.Proofs.Placement`. What is left is to say it
of the parser. -/

/-- An expression is laid out in its range, which is what its tokens span. -/
theorem expr_reaches (rules : Rules) {σ : Surface.Expr} (sound : s.Sound fe cs)
    (started : s.Started fe cs)
    (h : expr fe.next s = .ok (σ, s')) :
    s'.Sound fe cs ∧ s.Before s' ∧ σ.range = ⟨s.front, s'.back⟩ ∧ s.front < s'.back ∧
      ∀ e, Build.expr rules σ = .ok e → Laid fe rules cs s.front s'.back [.expr e] := by
  obtain ⟨xs, run, script, -⟩ := expr_reads (forward_next fe) s s' σ h
  obtain ⟨sound', before⟩ := Run.sound sound run
  have range := script.range_eq
  rw [Run.spanOf_eq sound run script.ne_nil] at range
  refine ⟨sound', before, range, Run.front_lt_back sound run script.ne_nil, ?_⟩
  intro e built
  have sited := (script.written built).sited sound started run
  refine Laid.single sited ?_
  show e.range.Within _
  rw [Build.expr_range rules σ built, range]
  exact .refl _

/-- No line break ends an expression. -/
theorem expr_closed {σ : Surface.Expr} (sound : s.Sound fe cs)
    (h : expr fe.next s = .ok (σ, s')) : Closed cs s'.back := by
  obtain ⟨xs, run, script, -⟩ := expr_reads (forward_next fe) s s' σ h
  obtain ⟨y, last, -, plain⟩ := script.endsExpr
  obtain ⟨ys, rfl⟩ := List.getLast?_eq_some_iff.1 last
  obtain ⟨t, front, step⟩ := run_append.1 run
  exact Run.closed (Run.sound sound front).1 step plain

/-- A node with its children laid out in it. -/
theorem Laid.node {a b : Nat} {n : Node} (h : Laid fe rules cs a b n.children)
    (range : n.range = ⟨a, b⟩) (ordered : a ≤ b) (origin : Arises fe rules cs n) :
    Laid fe rules cs a b [n] := by
  refine Laid.single (h.wrap range ordered origin) ?_
  rw [range]
  exact .refl _

/-! ## Types

A type with a mark is two nodes if it is optional: the type itself, and the type below the mark,
which ends where the mark starts. So `quantifiedType_laid` is told where the mark is. -/

/-- A type reaches from one position to another, and what is built from it is laid out there. -/
def TypeIn (fe : FrontEnd) (rules : Rules) (cs : List Char) (a b : Nat) (t : Surface.TypeExpr) :
    Prop :=
  t.range = ⟨a, b⟩ ∧ a < b ∧
    Yields fe rules cs (fun t T => Build.type t = .ok T) (fun T => [.type T]) a b t

/-- A type without its mark has the range that it was given, and its parameters. -/
theorem plainType_eq_ok {whole inner : Range} {name : String} {ps : List Ty} {nonempty : Bool}
    {T : Ty} (h : Build.plainType whole inner name ps nonempty = .ok T) :
    T.range = inner ∧ T.parameters = ps := by
  unfold Build.plainType at h
  repeat' split at h
  all_goals first
    | exact (Build.violate_ne_ok.1 h).elim
    | (cases h; simp_all [Ty.range, Ty.parameters])

/-- A type is laid out in its range if its parameters are laid out in front of its mark. -/
theorem quantifiedType_laid {a b c : Nat} {name : String} {ps : List Ty}
    {quantifier : Option (Surface.Quantifier × Nat)} {T : Ty}
    (h : Build.quantifiedType ⟨a, b⟩ name ps quantifier = .ok T) (ab : a < b)
    (laid : Laid fe rules cs a c (ps.map Node.type))
    (stop : c ≤ (quantifier.map Prod.snd).getD b) (start : ∀ q ∈ quantifier, a < q.2 ∧ q.2 ≤ b)
    (whole : TypeOrigin fe cs T) (within : ∀ r U, T = .optional r U → TypeOrigin fe cs U) :
    Laid fe rules cs a b [.type T] := by
  cases quantifier with
  | none =>
    obtain ⟨range, parameters⟩ := plainType_eq_ok h
    refine Laid.node (n := .type T) ?_ range (Nat.le_of_lt ab) whole
    show Laid fe rules cs a b (T.parameters.map Node.type)
    rw [parameters]
    exact laid.widen (Nat.le_refl _) stop
  | some q =>
    obtain ⟨q, start'⟩ := q
    obtain ⟨aq, qb⟩ := start _ rfl
    obtain ⟨plain, hplain, h⟩ := Build.bind_eq_ok.1 h
    obtain ⟨range, parameters⟩ := plainType_eq_ok hplain
    -- below the mark, which is what becomes of an array that must not be empty too
    have inner : TypeOrigin fe cs plain → Laid fe rules cs a start' [.type plain] := by
      refine Laid.node (n := .type plain) ?_ range (Nat.le_of_lt aq)
      show Laid fe rules cs a start' (plain.parameters.map Node.type)
      rw [parameters]
      exact laid.widen (Nat.le_refl _) stop
    split at h <;> cases h
    · exact Laid.node (n := .type (.optional ⟨a, b⟩ plain))
        ((inner (within _ _ rfl)).widen (Nat.le_refl _) qb) rfl (Nat.le_of_lt ab) whole
    · exact (inner whole).widen (Nat.le_refl _) qb

theorem types_eq_ok {ts : List Surface.TypeExpr} {Ts : List Ty} (h : Build.types ts = .ok Ts) :
    List.Forall₂ (fun t T => Build.type t = .ok T) ts Ts := by
  induction ts generalizing Ts with
  | nil => cases h; exact .nil
  | cons t ts ih =>
    obtain ⟨T, hT, rest, hrest, rfl⟩ := by simpa [Build.types] using h
    exact .cons hT (ih hrest)

/-- The parameters of a type are laid out behind its name. -/
theorem typeParameters_reaches {type : Parser Surface.TypeExpr}
    (htype : Reaches fe cs type (TypeIn fe rules cs)) {name : Surface.Word}
    {ts : List Surface.TypeExpr} {stop : Nat} (sound : s.Sound fe cs)
    (back : name.range.stop = s.back)
    (h : typeParameters fe.next type name s = .ok ((ts, stop), s')) :
    s'.Sound fe cs ∧ s.Before s' ∧ stop = s'.back ∧
      ∀ Ts, Build.types ts = .ok Ts → Laid fe rules cs s.front s'.back (Ts.map Node.type) := by
  rw [typeParameters, optionalSymbol_bind] at h
  rcases h with ⟨bracket, s₁, -, run, h⟩ | ⟨-, h⟩
  · simp only [bind_eq_ok, takeSymbol_eq_ok, pure_eq_ok] at h
    obtain ⟨first, s₂, hfirst, second, s₃, hsecond, close, s₄, ⟨-, run'⟩, eq, rfl⟩ := h
    cases eq
    obtain ⟨sound₁, b₁, -, -, -⟩ := Run.forward sound run
    obtain ⟨sound₂, b₂, -, -, yields⟩ := htype sound₁ hfirst
    have rest : s₃.Sound fe cs ∧ s₂.Before s₃ ∧
        Yields fe rules cs (List.Forall₂ fun t T => Build.type t = .ok T)
          (List.flatMap fun T => [.type T]) s₂.front s₃.back second := by
      rw [secondParameter, optionalSymbol_bind] at hsecond
      rcases hsecond with ⟨comma, t, -, run, h⟩ | ⟨-, h⟩
      · obtain ⟨t', u, ht, h⟩ := bind_eq_ok.1 h
        obtain ⟨rfl, rfl⟩ := pure_eq_ok.1 h
        obtain ⟨soundt, bt, -, -, -⟩ := Run.forward sound₂ run
        obtain ⟨soundu, bu, -, -, yields⟩ := htype soundt ht
        have all := Yields.cons soundu bu (.refl _) yields Yields.nil
        exact ⟨soundu, bt.trans bu, all.widen bt.front (Nat.le_refl _)⟩
      · obtain ⟨rfl, rfl⟩ := pure_eq_ok.1 h
        exact ⟨sound₂, .refl _, Yields.nil⟩
    obtain ⟨sound₃, b₃, more⟩ := rest
    obtain ⟨sound₄, b₄, -, back₄, -⟩ := Run.forward sound₃ run'
    refine ⟨sound₄, b₁.trans (b₂.trans (b₃.trans b₄)), back₄.symm, ?_⟩
    intro Ts built
    have laid := Yields.cons sound₂ b₂ b₃ yields more Ts (types_eq_ok built)
    rw [← List.map_eq_flatMap] at laid
    exact laid.widen b₁.front b₄.back
  · obtain ⟨eq, rfl⟩ := pure_eq_ok.1 h
    cases eq
    refine ⟨sound, .refl _, back, ?_⟩
    rintro Ts ⟨⟩
    exact Laid.nil

/-- A type reaches from its name to the end of its mark, or of its brackets if it has no mark. -/
theorem typeUpTo_reaches (n : Nat) : Reaches fe cs (typeUpTo fe.next n) (TypeIn fe rules cs) := by
  induction n with
  | zero =>
    intro s s' t sound h
    exact (reject_ne_ok.1 h).elim
  | succ n ih =>
    intro s s' t sound h
    -- the tokens of the type, for what is built of it
    obtain ⟨xs, runs, steps⟩ := typeUpTo_reads h
    have whole : ∀ T, Build.type t = .ok T → TypeOrigin fe cs T :=
      fun T built => .whole sound runs steps built
    have within : ∀ T, Build.type t = .ok T → ∀ r U, T = .optional r U → TypeOrigin fe cs U := by
      rintro _ built r U rfl
      exact .inner sound runs steps built
    simp only [typeUpTo, bind_eq_ok, takeName_eq_ok] at h
    obtain ⟨_, s₁, ⟨name, -, rfl, run⟩, ⟨ts, stop⟩, s₂, hparameters, r, s₃, hquantifier, h⟩ := h
    obtain ⟨-, runMark, -⟩ := quantifier_eq_ok.1 hquantifier
    obtain ⟨sound₁, b₁, front, back, lt⟩ := Run.forward sound run
    obtain ⟨sound₂, b₂, rfl, laid⟩ := typeParameters_reaches ih sound₁ back.symm hparameters
    have before := b₁.trans b₂
    have down := b₂.back
    have ordered₁ := sound₁.ordered
    have laid' : ∀ Ts, Build.types ts = .ok Ts →
        Laid fe rules cs s.front s₂.back (Ts.map Node.type) := by
      intro Ts built
      exact (laid Ts built).widen b₁.front (Nat.le_refl _)
    cases r with
    | none =>
      obtain rfl := run_nil.1 runMark
      obtain ⟨rfl, rfl⟩ := pure_eq_ok.1 h
      have lt' : s.front < s₂.back := by omega
      refine ⟨sound₂, before, by rw [front]; rfl, lt', ?_⟩
      intro T built
      have origin := whole T built
      have origin' := within T built
      obtain ⟨Ts, hTs, built⟩ := Build.bind_eq_ok.1 built
      have start : (word name).range.start = s.front := front.symm
      rw [start] at built
      exact quantifiedType_laid built lt' (laid' Ts hTs) (Nat.le_refl _) (by simp) origin origin'
    | some p =>
      obtain ⟨q, token⟩ := p
      obtain ⟨rfl, rfl⟩ := pure_eq_ok.1 h
      obtain ⟨sound₃, b₃, front₃, back₃, lt₃⟩ := Run.forward sound₂ runMark
      have ordered₂ := sound₂.ordered
      have lt' : s.front < s₃.back := by omega
      refine ⟨sound₃, before.trans b₃, by rw [front, back₃]; rfl, lt', ?_⟩
      intro T built
      have origin := whole T built
      have origin' := within T built
      obtain ⟨Ts, hTs, built⟩ := Build.bind_eq_ok.1 built
      have start : (word name).range.start = s.front := front.symm
      rw [start, ← back₃] at built
      refine quantifiedType_laid built lt' (laid' Ts hTs) ?_ ?_ origin origin'
      · show s₂.back ≤ token.start
        omega
      · rintro _ ⟨⟩
        show s.front < token.start ∧ token.start ≤ s₃.back
        omega

theorem typeExpr_reaches (rules : Rules) :
    Reaches fe cs (typeExpr fe.next) (TypeIn fe rules cs) := by
  intro s s' t sound h
  rw [typeExpr, remaining_bind] at h
  exact typeUpTo_reaches _ sound h

/-! ## Declarations

A declaration ends with its initializer, or with its name if there is none. Struct members never
have one and private declarations always do, so there are three rules and one lemma about what is
built, `decl_laid`. -/

/-- What is built from a declaration is laid out between two positions. -/
def DeclIn (fe : FrontEnd) (rules : Rules) (cs : List Char) : Nat → Nat → Surface.Decl → Prop :=
  Yields fe rules cs (fun d D => Build.decl rules d = .ok D) fun D => [.decl D]

/-- A declaration holds its type and, behind it, its initializer. -/
theorem decl_laid {a b c : Nat} {d : Surface.Decl} (range : d.range = ⟨a, b⟩)
    (type : TypeIn fe rules cs a c d.type) (cb : c ≤ b)
    (expr : ∀ σ ∈ d.expr, ∃ x, c ≤ x ∧ ∀ e, Build.expr rules σ = .ok e →
      Laid fe rules cs x b [.expr e]) : DeclIn fe rules cs a b d := by
  intro D built
  simp only [Build.decl, Build.bind_eq_ok, Build.pure_eq_ok] at built
  obtain ⟨T, hT, e, he, -, -, rfl⟩ := built
  obtain ⟨-, ac, yields⟩ := type
  refine Laid.node (n := .decl ⟨d.range, T, d.name.text, e⟩) ?_ range (by omega) trivial
  show Laid fe rules cs a b ([.type T] ++ (e.map Node.expr).toList)
  have first := yields T hT
  cases hσ : d.expr with
  | none =>
    rw [hσ] at he
    cases he
    exact first.widen (Nat.le_refl _) cb
  | some σ =>
    rw [hσ] at he
    obtain ⟨e, hb, rfl⟩ := by simpa [Build.initializer] using he
    obtain ⟨x, cx, laid⟩ := expr σ hσ
    exact first.append (laid e hb) (by omega) cx cb

/-- A declaration whose type and name are taken, with what is behind them. -/
theorem initialized_reaches {a c : Nat} {type : Surface.TypeExpr} {name : Surface.Word}
    {d : Surface.Decl} (htype : TypeIn fe rules cs a c type) (sound : s.Sound fe cs)
    (ordered : c ≤ s.front) (h : initialized fe.next type name s = .ok (d, s')) :
    s'.Sound fe cs ∧ s.Before s' ∧ DeclIn fe rules cs a s'.back d := by
  simp only [initialized, bind_eq_ok, takeSymbol_eq_ok, pure_eq_ok] at h
  obtain ⟨equal, s₁, ⟨-, run⟩, σ, s₂, hσ, rfl, rfl⟩ := h
  obtain ⟨sound₁, b₁, front₁, back₁, lt₁⟩ := Run.forward sound run
  obtain ⟨sound₂, b₂, range, lt, laid⟩ :=
    expr_reaches rules sound₁ (Run.started_single sound run) hσ
  refine ⟨sound₂, b₁.trans b₂, decl_laid ?_ htype ?_ ?_⟩
  · show (⟨type.range.start, σ.range.stop⟩ : Range) = _
    rw [htype.1, range]
  · have := b₂.back
    omega
  · rintro _ ⟨⟩
    exact ⟨s₁.front, Nat.le_trans ordered b₁.front, laid⟩

/-- A declaration whose type is taken ends with its name if nothing is behind that. -/
theorem unbound_laid {a : Nat} {type : Surface.TypeExpr} {name : Token} {after : Expect}
    (htype : TypeIn fe rules cs a s.back type) (sound : s.Sound fe cs)
    (run : Run fe.next s [⟨name, after⟩] s') :
    DeclIn fe rules cs a s'.back
      ⟨⟨type.range.start, (word name).range.stop⟩, type, word name, none⟩ := by
  obtain ⟨-, before, -, back, -⟩ := Run.forward sound run
  refine decl_laid ?_ htype before.back (by simp)
  show (⟨_, name.stop⟩ : Range) = _
  rw [htype.1, back]

theorem unboundDecl_reaches (rules : Rules) :
    Reaches fe cs (unboundDecl fe.next) (DeclIn fe rules cs) := by
  intro s s' d sound h
  simp only [unboundDecl, bind_eq_ok, takeName_eq_ok, pure_eq_ok] at h
  obtain ⟨type, s₁, htype, _, s₂, ⟨name, -, rfl, run⟩, rfl, rfl⟩ := h
  obtain ⟨sound₁, b₁, type⟩ := typeExpr_reaches rules sound htype
  obtain ⟨sound₂, b₂, -, -, -⟩ := Run.forward sound₁ run
  exact ⟨sound₂, b₁.trans b₂, unbound_laid type sound₁ run⟩

theorem boundDecl_reaches (rules : Rules) :
    Reaches fe cs (boundDecl fe.next) (DeclIn fe rules cs) := by
  intro s s' d sound h
  simp only [boundDecl, bind_eq_ok, takeName_eq_ok] at h
  obtain ⟨type, s₁, htype, _, s₂, ⟨name, -, rfl, run⟩, h⟩ := h
  obtain ⟨sound₁, b₁, type⟩ := typeExpr_reaches rules sound htype
  obtain ⟨sound₂, b₂, -, -, -⟩ := Run.forward sound₁ run
  have ordered := Nat.le_trans sound₁.ordered b₂.front
  obtain ⟨sound₃, b₃, decl⟩ := initialized_reaches type sound₂ ordered h
  exact ⟨sound₃, b₁.trans (b₂.trans b₃), decl⟩

theorem anyDecl_reaches (rules : Rules) :
    Reaches fe cs (anyDecl fe.next) (DeclIn fe rules cs) := by
  intro s s' d sound h
  rw [anyDecl] at h
  simp only [bind_eq_ok, takeName_eq_ok] at h
  obtain ⟨type, s₁, htype, _, s₂, ⟨name, -, rfl, run⟩, h⟩ := h
  obtain ⟨sound₁, b₁, type⟩ := typeExpr_reaches rules sound htype
  obtain ⟨sound₂, b₂, -, -, -⟩ := Run.forward sound₁ run
  have ordered := Nat.le_trans sound₁.ordered b₂.front
  rw [← bind_eq_ok, sees_bind] at h
  rcases h with ⟨-, h⟩ | ⟨-, h⟩
  · obtain ⟨sound₃, b₃, decl⟩ := initialized_reaches type sound₂ ordered h
    exact ⟨sound₃, b₁.trans (b₂.trans b₃), decl⟩
  · obtain ⟨rfl, rfl⟩ := pure_eq_ok.1 h
    exact ⟨sound₂, b₁.trans b₂, unbound_laid type sound₁ run⟩

/-- The nodes of declarations that are built one by one. -/
theorem flatMap_declNodes (ds : List Decl) : ds.flatMap (fun D => [.decl D]) = declNodes ds :=
  List.map_eq_flatMap.symm

/-- The declarations of a section are laid out in it. -/
theorem declSection_reaches (rules : Rules) (k : Keyword) :
    Reaches fe cs (declSection fe.next k) fun a b x =>
      x.1 = ⟨a, b⟩ ∧ a ≤ b ∧ Yields fe rules cs
        (List.Forall₂ fun d D => Build.decl rules d = .ok D) declNodes a b x.2 := by
  intro s s' x sound h
  simp only [declSection, bind_eq_ok, takeKeyword_eq_ok, takeSymbol_eq_ok, pure_eq_ok] at h
  obtain ⟨start, s₁, ⟨-, run₁⟩, brace, s₂, ⟨-, run₂⟩, ds, s₃, hds, close, s₄, ⟨-, run₄⟩, rfl,
    rfl⟩ := h
  obtain ⟨sound₁, b₁, front₁, -, lt⟩ := Run.forward sound run₁
  obtain ⟨sound₂, b₂, -, -, -⟩ := Run.forward sound₁ run₂
  obtain ⟨sound₃, b₃, yields⟩ := many_reaches (anyDecl_reaches rules) isName sound₂ hds
  obtain ⟨sound₄, b₄, front₄, back₄, lt₄⟩ := Run.forward sound₃ run₄
  have before := b₁.trans (b₂.trans (b₃.trans b₄))
  refine ⟨sound₄, before, by rw [front₁, back₄], ?_, ?_⟩
  · have := (b₁.trans (b₂.trans b₃)).front
    omega
  · intro Ds built
    have laid := yields Ds built
    rw [flatMap_declNodes] at laid
    exact laid.widen (b₁.trans b₂).front b₄.back

/-! ## Meta sections

Meta values have a recursion of their own. Values without values inside are leaves: they have a
range and no children. -/

/-- A meta value reaches from one position to another, and what is built from it is laid out
there. -/
def MetaIn (fe : FrontEnd) (rules : Rules) (cs : List Char) (a b : Nat) (m : Surface.Meta) : Prop :=
  m.range = ⟨a, b⟩ ∧ a < b ∧
    Yields fe rules cs (fun m M => Build.metaValue rules.names m = .ok M) (fun M => [.metaValue M])
      a b m

/-- A meta value without values inside. -/
theorem metaLeaf_laid {a b : Nat} {m : Surface.Meta} (range : m.range = ⟨a, b⟩) (ab : a < b)
    (leaf : ∀ M, Build.metaValue rules.names m = .ok M → M.range = m.range ∧ M.children = []) :
    MetaIn fe rules cs a b m := by
  refine ⟨range, ab, fun M built => ?_⟩
  obtain ⟨same, none⟩ := leaf M built
  refine Laid.node (n := .metaValue M) ?_ (same.trans range) (Nat.le_of_lt ab) trivial
  show Laid fe rules cs a b M.children
  rw [none]
  exact Laid.nil

/-- A number has the range that it was given, and no children. -/
theorem metaNumber_leaf {r : Range} {sign : Option Surface.Sign} {n : Surface.Number} {M : Meta}
    (h : Build.metaNumber r sign n = .ok M) : M.range = r ∧ M.children = [] := by
  obtain ⟨value, -, h⟩ := Build.bind_eq_ok.1 h
  have eq := Build.pure_eq_ok.1 h
  subst eq
  cases hv : (if sign = some .minus then value.neg else value) <;> exact ⟨rfl, rfl⟩

theorem metaItems_eq_ok {ms : List Surface.Meta} {Ms : List Meta}
    (h : Build.metaItems rules.names ms = .ok Ms) :
    List.Forall₂ (fun m M => Build.metaValue rules.names m = .ok M) ms Ms := by
  induction ms generalizing Ms with
  | nil => cases h; exact .nil
  | cons m ms ih =>
    obtain ⟨M, hM, rest, hrest, rfl⟩ := by simpa [Build.metaItems] using h
    exact .cons hM (ih hrest)

theorem metaEntries_eq_ok {ms : List Surface.MetaMember} {es : List (String × Meta × Range)}
    (h : Build.metaEntries rules.names ms = .ok es) :
    List.Forall₂ (fun m e => Build.metaValue rules.names m.2.2 = .ok e.2.1) ms es := by
  induction ms generalizing es with
  | nil => cases h; exact .nil
  | cons m ms ih =>
    obtain ⟨key, r, m⟩ := m
    obtain ⟨M, hM, rest, hrest, rfl⟩ := by simpa [Build.metaEntries] using h
    exact .cons hM (ih hrest)

/-- Entries that are distinct have the nodes of their values. -/
theorem metaNodes_distinct {es : List (String × Meta × Range)} {entries : List (String × Meta)}
    (h : Build.distinct .repeatedKey [] es = .ok entries) :
    metaNodes entries = es.map fun e => .metaValue e.2.1 := by
  rw [Build.distinct_eq_ok h]
  simp [metaNodes, Function.comp_def]

section Values

variable {value : Parser Surface.Meta}

/-- The value of a member is laid out behind its key. -/
theorem metaMember_reaches (hvalue : Reaches fe cs value (MetaIn fe rules cs)) :
    Reaches fe cs (metaMember fe.next value) (Yields fe rules cs
      (fun m (e : String × Meta × Range) => Build.metaValue rules.names m.2.2 = .ok e.2.1)
      fun e => [.metaValue e.2.1]) := by
  intro s s' x sound h
  simp only [metaMember, bind_eq_ok, takeName_eq_ok, takeSymbol_eq_ok, pure_eq_ok] at h
  obtain ⟨_, s₁, ⟨name, -, rfl, run₁⟩, colon, s₂, ⟨-, run₂⟩, m, s₃, hm, rfl, rfl⟩ := h
  obtain ⟨sound₁, b₁, -, -, -⟩ := Run.forward sound run₁
  obtain ⟨sound₂, b₂, -, -, -⟩ := Run.forward sound₁ run₂
  obtain ⟨sound₃, b₃, -, -, yields⟩ := hvalue sound₂ hm
  refine ⟨sound₃, b₁.trans (b₂.trans b₃), fun e built => ?_⟩
  exact (yields e.2.1 built).widen (b₁.trans b₂).front (Nat.le_refl _)

/-- The entries of a meta object are laid out between its braces. -/
theorem metaMembers_reaches (hvalue : Reaches fe cs value (MetaIn fe rules cs)) :
    Reaches fe cs (metaMembers fe.next value) fun a b x =>
      x.1 = ⟨a, b⟩ ∧ a < b ∧ ∀ es, Build.metaEntries rules.names x.2 = .ok es →
        Laid fe rules cs a b (es.map fun e => .metaValue e.2.1) := by
  intro s s' x sound h
  simp only [metaMembers, bind_eq_ok, takeSymbol_eq_ok, pure_eq_ok] at h
  obtain ⟨brace, s₁, ⟨-, run₁⟩, ms, s₂, hms, close, s₃, ⟨-, run₃⟩, rfl, rfl⟩ := h
  obtain ⟨sound₁, b₁, front₁, -, -⟩ := Run.forward sound run₁
  obtain ⟨sound₂, b₂, yields⟩ :=
    looseList_reaches (metaMember_reaches hvalue) .braceClose Expect.entries sound₁ hms
  obtain ⟨sound₃, b₃, front₃, back₃, lt⟩ := Run.forward sound₂ run₃
  refine ⟨sound₃, b₁.trans (b₂.trans b₃), by rw [front₁, back₃], ?_, ?_⟩
  · have := (b₁.trans b₂).front
    omega
  · intro es built
    have laid := yields es (metaEntries_eq_ok built)
    rw [← List.map_eq_flatMap] at laid
    exact laid.widen b₁.front b₃.back

/-- The items of an array are laid out between its brackets. -/
theorem metaArray_reaches (hvalue : Reaches fe cs value (MetaIn fe rules cs)) :
    Reaches fe cs (metaArray fe.next value) (MetaIn fe rules cs) := by
  intro s s' m sound h
  simp only [metaArray, bind_eq_ok, takeSymbol_eq_ok, pure_eq_ok] at h
  obtain ⟨bracket, s₁, ⟨-, run₁⟩, ms, s₂, hms, close, s₃, ⟨-, run₃⟩, rfl, rfl⟩ := h
  have item : Reaches fe cs value (Yields fe rules cs
      (fun m M => Build.metaValue rules.names m = .ok M) fun M => [.metaValue M]) := by
    intro s s' m sound h
    obtain ⟨sound', before, -, -, yields⟩ := hvalue sound h
    exact ⟨sound', before, yields⟩
  obtain ⟨sound₁, b₁, front₁, -, -⟩ := Run.forward sound run₁
  obtain ⟨sound₂, b₂, yields⟩ := commaList_reaches item .bracketClose Expect.metaItem sound₁ hms
  obtain ⟨sound₃, b₃, front₃, back₃, lt⟩ := Run.forward sound₂ run₃
  have ordered : s.front < s₃.back := by
    have := (b₁.trans b₂).front
    omega
  refine ⟨sound₃, b₁.trans (b₂.trans b₃), by rw [front₁, back₃]; rfl, ordered, fun M built => ?_⟩
  obtain ⟨Ms, hMs, rfl⟩ := by simpa [Build.metaValue] using built
  have laid := yields Ms (metaItems_eq_ok hMs)
  rw [← List.map_eq_flatMap] at laid
  refine Laid.node (n := .metaValue (.array _ Ms)) ?_ (by rw [front₁, back₃]; rfl)
    (Nat.le_of_lt ordered) trivial
  exact laid.widen b₁.front b₃.back

end Values

/-- A number with a sign reaches from the sign to the last digit. -/
theorem signedNumber_reaches (sign : Surface.Sign) :
    Reaches fe cs (signedNumber fe.next sign) (MetaIn fe rules cs) := by
  intro s s' m sound h
  simp only [signedNumber, bind_eq_ok, shift_eq_ok, takeNumber_eq_ok, pure_eq_ok] at h
  obtain ⟨t, s₁, run₁, _, s₂, ⟨number, kind, -, rfl, run₂⟩, rfl, rfl⟩ := h
  obtain ⟨sound₁, b₁, front₁, -, lt₁⟩ := Run.forward sound run₁
  obtain ⟨sound₂, b₂, front₂, back₂, lt₂⟩ := Run.forward sound₁ run₂
  have ordered := b₁.front
  refine ⟨sound₂, b₁.trans b₂, metaLeaf_laid ?_ (by omega) fun M built => metaNumber_leaf built⟩
  rw [front₁, back₂]
  rfl

/-- One token that is a meta value. -/
theorem metaToken_reaches {t : Token} {after : Expect} {m : Surface.Meta} (sound : s.Sound fe cs)
    (run : Run fe.next s [⟨t, after⟩] s') (range : m.range = t.range)
    (leaf : ∀ M, Build.metaValue rules.names m = .ok M → M.range = m.range ∧ M.children = []) :
    s'.Sound fe cs ∧ s.Before s' ∧ MetaIn fe rules cs s.front s'.back m := by
  obtain ⟨sound', before, front, back, lt⟩ := Run.forward sound run
  refine ⟨sound', before, metaLeaf_laid ?_ (by omega) leaf⟩
  rw [range, Run.range_eq sound run]

/-- A meta value reaches over all its tokens. -/
theorem metaUpTo_reaches (rules : Rules) (n : Nat) :
    Reaches fe cs (metaUpTo fe.next n) (MetaIn fe rules cs) := by
  induction n with
  | zero =>
    intro s s' m sound h
    exact (reject_ne_ok.1 h).elim
  | succ n ih =>
    intro s s' m sound h
    rw [metaUpTo, peek_bind] at h
    -- a word is one token, whatever its value
    have word : ∀ f : Range → Surface.Meta,
        (∀ r, (f r).range = r ∧
          ∃ M, Build.metaValue rules.names (f r) = .ok M ∧ M.range = r ∧ M.children = []) →
        (do return f (← shift fe.next Expect.afterMeta).range : Parser Surface.Meta) s =
          .ok (m, s') →
        s'.Sound fe cs ∧ s.Before s' ∧ MetaIn fe rules cs s.front s'.back m := by
      intro f hf h
      obtain ⟨t, u, ht, h⟩ := bind_eq_ok.1 h
      obtain ⟨rfl, rfl⟩ := pure_eq_ok.1 h
      obtain ⟨range, M, hM, same, none⟩ := hf t.range
      refine metaToken_reaches sound (shift_eq_ok.1 ht) range fun M' built => ?_
      rw [hM] at built
      cases built
      exact ⟨same.trans range.symm, none⟩
    cases seen : s.kind? with
    | none => rw [seen] at h; exact (reject_ne_ok.1 h).elim
    | some k =>
      rw [seen] at h
      cases k with
      | keyword k =>
        cases k
        case kwNull => exact word .null (fun r => ⟨rfl, _, rfl, rfl, rfl⟩) h
        case kwTrue => exact word (.boolean · true) (fun r => ⟨rfl, _, rfl, rfl, rfl⟩) h
        case kwFalse => exact word (.boolean · false) (fun r => ⟨rfl, _, rfl, rfl, rfl⟩) h
        all_goals exact (reject_ne_ok.1 h).elim
      | symbol k =>
        cases k
        case minus => exact signedNumber_reaches _ sound h
        case plus => exact signedNumber_reaches _ sound h
        case bracketOpen => exact metaArray_reaches ih sound h
        case braceOpen =>
          obtain ⟨⟨r, ms⟩, u, hms, h⟩ := bind_eq_ok.1 h
          obtain ⟨rfl, rfl⟩ := pure_eq_ok.1 h
          obtain ⟨sound', before, range, lt, laid⟩ := metaMembers_reaches ih sound hms
          refine ⟨sound', before, range, lt, fun M built => ?_⟩
          simp only [Build.metaValue, Build.bind_eq_ok, Build.pure_eq_ok] at built
          obtain ⟨es, hes, entries, hentries, rfl⟩ := built
          refine Laid.node (n := .metaValue (.object r entries)) ?_ range (Nat.le_of_lt lt) trivial
          show Laid fe rules cs _ _ (metaNodes entries)
          rw [metaNodes_distinct hentries]
          exact laid es hes
        all_goals exact (reject_ne_ok.1 h).elim
      | number kind =>
        obtain ⟨_, u, hn, h⟩ := bind_eq_ok.1 h
        obtain ⟨rfl, rfl⟩ := pure_eq_ok.1 h
        obtain ⟨t, kind, -, rfl, run⟩ := takeNumber_eq_ok.1 hn
        exact metaToken_reaches sound run rfl fun M built => metaNumber_leaf built
      | quoted q =>
        obtain ⟨_, u, hq, h⟩ := bind_eq_ok.1 h
        obtain ⟨rfl, rfl⟩ := pure_eq_ok.1 h
        obtain ⟨t, kind, -, rfl, run⟩ := takeQuoted_eq_ok.1 hq
        refine metaToken_reaches sound run rfl fun M built => ?_
        obtain ⟨text, -, rfl⟩ := by simpa [Build.metaValue] using built
        exact ⟨rfl, rfl⟩
      | _ => exact (reject_ne_ok.1 h).elim

/-- The values of a meta section are laid out in it. -/
theorem metaSection_reaches (rules : Rules) (k : Keyword) (kind : Surface.MetaKind) :
    Reaches fe cs (metaSection fe.next k kind)
      (Yields fe rules cs (fun m S => Build.metaSection rules.names m = .ok S)
        Build.Section.nodes) := by
  intro s s' x sound h
  simp only [metaSection, bind_eq_ok, takeKeyword_eq_ok, remaining_eq_ok] at h
  obtain ⟨start, s₁, ⟨-, run₁⟩, n, _, ⟨-, rfl⟩, ⟨r, ms⟩, s₂, hms, h⟩ := h
  obtain ⟨rfl, rfl⟩ := pure_eq_ok.1 h
  obtain ⟨sound₁, b₁, -, -, -⟩ := Run.forward sound run₁
  obtain ⟨sound₂, b₂, range, lt, laid⟩ := metaMembers_reaches (metaUpTo_reaches rules n) sound₁ hms
  refine ⟨sound₂, b₁.trans b₂, fun S built => ?_⟩
  simp only [Build.metaSection, Build.bind_eq_ok, Build.pure_eq_ok] at built
  obtain ⟨es, hes, entries, hentries, rfl⟩ := built
  have all := (laid es hes).widen b₁.front (Nat.le_refl s₂.back)
  rw [← metaNodes_distinct hentries] at all
  cases kind with
  | metaSection => exact all
  | parameterMeta => exact all

/-! ## Tasks

A runtime section keeps one value for each key, and a task has a field for each kind of its items.
So what is built may have fewer nodes than its surface form, and in another order: `Laid.subperm`.
-/

/-- The value of an entry is laid out behind its key. -/
theorem runtimeEntry_reaches (rules : Rules) :
    Reaches fe cs (runtimeEntry fe.next) (Yields fe rules cs
      (fun x (y : Range × String × Expr) => Build.runtimeEntry rules x = .ok y)
      fun y => [.expr y.2.2]) := by
  intro s s' x sound h
  simp only [runtimeEntry, bind_eq_ok, takeName_eq_ok, takeSymbol_eq_ok, pure_eq_ok] at h
  obtain ⟨_, s₁, ⟨key, -, rfl, run₁⟩, colon, s₂, ⟨-, run₂⟩, σ, s₃, hσ, rfl, rfl⟩ := h
  obtain ⟨sound₁, b₁, -, -, -⟩ := Run.forward sound run₁
  obtain ⟨sound₂, b₂, -, -, -⟩ := Run.forward sound₁ run₂
  obtain ⟨sound₃, b₃, -, -, laid⟩ :=
    expr_reaches rules sound₂ (Run.started_single sound₁ run₂) hσ
  refine ⟨sound₃, b₁.trans (b₂.trans b₃), fun y built => ?_⟩
  obtain ⟨e, he, rfl⟩ := by simpa [Build.runtimeEntry] using built
  exact (laid e he).widen (b₁.trans b₂).front (Nat.le_refl _)

/-- The surface item of a task yields the nodes of what is built from it. -/
def TaskItemIn (fe : FrontEnd) (rules : Rules) (cs : List Char) :
    Nat → Nat → Surface.TaskItem → Prop :=
  Yields fe rules cs (fun i I => (Build.taskItem rules i).Gives I) (Build.Item.nodes Node.decl)

/-- The values of a runtime section are laid out in it; of the entries with one key the last is
kept. -/
theorem runtimeSection_reaches (rules : Rules) :
    Reaches fe cs (runtimeSection fe.next) (TaskItemIn fe rules cs) := by
  intro s s' x sound h
  simp only [runtimeSection, bind_eq_ok, takeKeyword_eq_ok, takeSymbol_eq_ok, pure_eq_ok] at h
  obtain ⟨start, s₁, ⟨-, run₁⟩, brace, s₂, ⟨-, run₂⟩, es, s₃, hes, close, s₄, ⟨-, run₄⟩, rfl,
    rfl⟩ := h
  obtain ⟨sound₁, b₁, -, -, -⟩ := Run.forward sound run₁
  obtain ⟨sound₂, b₂, -, -, -⟩ := Run.forward sound₁ run₂
  obtain ⟨sound₃, b₃, yields⟩ :=
    looseList_reaches (runtimeEntry_reaches rules) .braceClose Expect.aName sound₂ hes
  obtain ⟨sound₄, b₄, -, -, -⟩ := Run.forward sound₃ run₄
  refine ⟨sound₄, b₁.trans (b₂.trans (b₃.trans b₄)), fun I built => ?_⟩
  obtain ⟨entries, hentries, built⟩ := Builder.gives_bind built
  obtain ⟨runtime, hruntime, built⟩ := Builder.gives_bind built
  cases Builder.gives_pure built
  have laid := yields entries (Build.mapM_eq_ok.1 (Builder.gives_check hentries))
  rw [← List.map_eq_flatMap] at laid
  have fewer := Build.collectRuntime_subperm hruntime
  exact (laid.subperm fewer).widen (b₁.trans b₂).front b₄.back

/-- Parts have the placeholders of the pieces they are made from. -/
theorem partNodes_partOf (ps : List (Wdl.Piece Placeholder)) :
    partNodes (ps.map Build.partOf) = (Build.holes ps).map Node.placeholder := by
  induction ps with
  | nil => rfl
  | cons p ps ih =>
    cases p with
    | text cs => exact ih
    | hole x => exact congrArg (Node.placeholder x :: ·) ih

/-- And so have raw parts. -/
theorem rawHoles_pieceOf (raw : List Build.RawPart) :
    rawHoles raw = (Build.holes (raw.map Build.pieceOf)).map Node.placeholder := by
  induction raw with
  | nil => rfl
  | cons p ps ih =>
    cases p with
    | text r cs => exact ih
    | placeholder x => exact congrArg (Node.placeholder x :: ·) ih

/-- A command is built of its raw parts, without the indentation that its lines share. -/
theorem command_gives {rules : Rules} {c : Surface.Command} {C : Command}
    (h : (Build.command rules c).Gives C) :
    ∃ raw, Build.rawParts rules c.parts = .ok raw ∧
      C = ⟨c.range, (Indentation.strip (raw.map Build.pieceOf)).pieces.map Build.partOf,
        c.style == .heredoc⟩ := by
  obtain ⟨raw, hraw, h⟩ := Builder.gives_bind h
  have done : (pure ⟨c.range, (Indentation.strip (raw.map Build.pieceOf)).pieces.map Build.partOf,
      c.style == .heredoc⟩ : Builder Command).Gives C := by
    dsimp only at h
    split at h
    · obtain ⟨-, -, h⟩ := Builder.gives_bind h
      exact h
    · exact h
  exact ⟨raw, Builder.gives_check hraw, (Builder.gives_pure done).symm⟩

/-- The placeholders of a command are those of its parts, without what stripping leaves out. -/
theorem command_holes {rules : Rules} {c : Surface.Command} {C : Command}
    (h : (Build.command rules c).Gives C) :
    C.range = c.range ∧ ∃ raw, Build.rawParts rules c.parts = .ok raw ∧
      (partNodes C.parts).Sublist (rawHoles raw) := by
  obtain ⟨raw, hraw, rfl⟩ := command_gives h
  refine ⟨rfl, raw, hraw, ?_⟩
  show (partNodes (List.map _ _)).Sublist _
  rw [partNodes_partOf, rawHoles_pieceOf, Build.holes_strip]

/-- The placeholders of a command are laid out between its delimiters. -/
theorem command_reaches (rules : Rules) :
    Reaches fe cs (command fe.next)
      (Yields fe rules cs (fun c C => (Build.command rules c).Gives C) fun C => [.command C]) := by
  intro s s' c sound h
  -- either style reads its parts in the same way
  have parts : ∀ {style : CommandStyle} {t u v : State} {start opening close : Token}
      {ps : List Surface.Part}, start.kind = .keyword .kwCommand →
      Run fe.next s [⟨start, Expect.commandOpen⟩] t →
      opening.kind = .symbol (commandOpen style) ∧
        Run fe.next t [⟨opening, Expect.inCommand style⟩] u →
      commandParts fe.next style (commandHole style) u = .ok (ps, v) →
      close.kind = .symbol (commandClose style) ∧
        Run fe.next v [⟨close, Expect.afterCommand⟩] s' →
      s'.Sound fe cs ∧ s.Before s' ∧
        Yields fe rules cs (fun c C => (Build.command rules c).Gives C) (fun C => [.command C])
          s.front s'.back ⟨⟨start.start, close.stop⟩, style, ps⟩ := by
    rintro style t u v start opening close ps kind run₁ ⟨opened, run₂⟩ hps ⟨closed, run₄⟩
    obtain ⟨sound₁, b₁, front₁, -, -⟩ := Run.forward sound run₁
    obtain ⟨sound₂, b₂, -, -, -⟩ := Run.forward sound₁ run₂
    simp only [commandParts, bind_eq_ok, remaining_eq_ok] at hps
    obtain ⟨n, _, ⟨-, rfl⟩, hps⟩ := hps
    obtain ⟨hoperand, hexpr⟩ := reads (forward_next fe) (2 * n)
    obtain ⟨pieces, rfl, fits, inner, run₃⟩ := partsUpTo_reads (forward_next fe) hexpr hoperand
      (.command style) hps
    obtain ⟨sound₃, b₃⟩ := Run.sound sound₂ run₃
    obtain ⟨sound₄, b₄, front₄, back₄, lt₄⟩ := Run.forward sound₃ run₄
    refine ⟨sound₄, b₁.trans (b₂.trans (b₃.trans b₄)), fun C built => ?_⟩
    obtain ⟨range, raw, hraw, sub⟩ := command_holes built
    have spread := parts_spread (.command style) inner
      (fun p hp x hx e he => (inner p hp x hx).written he) hraw
    have laid := Spread.laid sound₂ (by rintro ⟨⟩) spread run₃
    have ordered := (b₁.trans (b₂.trans b₃)).front
    refine Laid.node (n := .command C) ?_ ?_ (by omega) ?_
    · exact (laid.subperm sub.subperm).widen (b₁.trans b₂).front b₄.back
    · show C.range = _
      rw [range, front₁, back₄]
    · have run := run_cons.2 ⟨t, run₁, run_cons.2 ⟨u, run₂, run_append.2 ⟨v, run₃, run₄⟩⟩⟩
      exact CommandOrigin.whole (p := ⟨style, start, opening, pieces, close⟩) sound run
        ⟨kind, opened, fits, closed⟩ built
  rw [command] at h
  obtain ⟨start, s₁, hstart, h⟩ := bind_eq_ok.1 h
  obtain ⟨kind, run₁⟩ := takeKeyword_eq_ok.1 hstart
  rw [sees_bind] at h
  rcases h with ⟨seen, h⟩ | ⟨-, h⟩
  · simp only [bind_eq_ok, shift_eq_ok, takeSymbol_eq_ok, pure_eq_ok] at h
    obtain ⟨opening, s₂, run₂, ps, s₃, hps, close, s₄, run₄, rfl, rfl⟩ := h
    rw [run₂.kind?_eq] at seen
    exact parts kind run₁ ⟨Option.some.inj seen, run₂⟩ hps run₄
  · simp only [bind_eq_ok, takeSymbol_eq_ok, pure_eq_ok] at h
    obtain ⟨opening, s₂, run₂, ps, s₃, hps, close, s₄, run₄, rfl, rfl⟩ := h
    exact parts kind run₁ run₂ hps run₄

/-- The declarations of an input section are built one by one. -/
theorem declSection_inputs {fe : FrontEnd} {rules : Rules} {cs : List Char} {a b : Nat}
    {ds : List Surface.Decl} {Ds : List Decl}
    (h : Yields fe rules cs (List.Forall₂ fun d D => Build.decl rules d = .ok D) declNodes a b ds)
    (built : ds.mapM (Build.decl rules) = .ok Ds) : Laid fe rules cs a b (declNodes Ds) :=
  h Ds (Build.mapM_eq_ok.1 built)

/-- So are those of an output section, of which the names are looked at afterwards. -/
theorem declSection_outputs {fe : FrontEnd} {rules : Rules} {cs : List Char} {a b : Nat}
    {ds : List Surface.Decl} {Ds : List Decl}
    (h : Yields fe rules cs (List.Forall₂ fun d D => Build.decl rules d = .ok D) declNodes a b ds)
    (built : Build.outputs rules ds = .ok Ds) : Laid fe rules cs a b (declNodes Ds) := by
  simp only [Build.outputs, Build.bind_eq_ok, Build.pure_eq_ok] at built
  obtain ⟨Ds, hDs, -, -, rfl⟩ := built
  exact declSection_inputs h hDs

/-- What an item of a task is, is told from the terminal ahead of it. -/
theorem taskItem_reaches (rules : Rules) :
    Reaches fe cs (taskItem fe.next) (TaskItemIn fe rules cs) := by
  have inputs : Reaches fe cs
      (do let x ← declSection fe.next .kwInput; return .inputs x.1 x.2)
      (TaskItemIn fe rules cs) := by
    refine Reaches.wrapped (@declSection_reaches fe cs rules .kwInput) ?_
    rintro a b ⟨r, ds⟩ ⟨-, -, yields⟩ I built
    obtain ⟨Ds, hDs, built⟩ := Builder.gives_bind built
    cases Builder.gives_pure built
    exact declSection_inputs yields (Builder.gives_check hDs)
  have outputs : Reaches fe cs
      (do let x ← declSection fe.next .kwOutput; return .outputs x.1 x.2)
      (TaskItemIn fe rules cs) := by
    refine Reaches.wrapped (@declSection_reaches fe cs rules .kwOutput) ?_
    rintro a b ⟨r, ds⟩ ⟨-, -, yields⟩ I built
    obtain ⟨Ds, hDs, built⟩ := Builder.gives_bind built
    cases Builder.gives_pure built
    exact declSection_outputs yields (Builder.gives_check hDs)
  have metadata : ∀ k kind, Reaches fe cs
      (do return .metadata (← metaSection fe.next k kind)) (TaskItemIn fe rules cs) := by
    intro k kind
    refine Reaches.wrapped (metaSection_reaches rules k kind) fun yields I built => ?_
    obtain ⟨S, hS, built⟩ := Builder.gives_bind built
    cases Builder.gives_pure built
    exact yields S (Builder.gives_check hS)
  have decl : Reaches fe cs (do return .decl (← boundDecl fe.next)) (TaskItemIn fe rules cs) := by
    refine Reaches.wrapped (boundDecl_reaches rules) fun yields I built => ?_
    obtain ⟨D, hD, built⟩ := Builder.gives_bind built
    cases Builder.gives_pure built
    exact yields D (Builder.gives_check hD)
  intro s s' i sound h
  rw [taskItem, peek_bind] at h
  cases seen : s.kind? with
  | none => rw [seen] at h; exact decl sound h
  | some k =>
    rw [seen] at h
    cases k with
    | keyword k =>
      cases k
      case kwInput => exact inputs sound h
      case kwOutput => exact outputs sound h
      case kwRuntime => exact runtimeSection_reaches rules sound h
      case kwMeta => exact metadata .kwMeta _ sound h
      case kwParameterMeta => exact metadata .kwParameterMeta _ sound h
      all_goals exact decl sound h
    | _ => exact decl sound h

/-- A task holds its command and the nodes of its other items. -/
theorem task_reaches (rules : Rules) :
    Reaches fe cs (task fe.next) fun a b t => Closed cs b ∧
      Yields fe rules cs (fun t T => (Build.task rules t).Gives T) (fun T => [.task T]) a b t := by
  intro s s' t sound h
  simp only [task, bind_eq_ok, takeKeyword_eq_ok, takeName_eq_ok, takeSymbol_eq_ok,
    pure_eq_ok] at h
  obtain ⟨start, s₁, ⟨-, run₁⟩, _, s₂, ⟨name, -, rfl, run₂⟩, brace, s₃, ⟨-, run₃⟩, before, s₄,
    hbefore, c, s₅, hc, behind, s₆, hbehind, close, s₇, ⟨kind, run₇⟩, rfl, rfl⟩ := h
  obtain ⟨sound₁, b₁, front₁, -, -⟩ := Run.forward sound run₁
  obtain ⟨sound₂, b₂, -, -, -⟩ := Run.forward sound₁ run₂
  obtain ⟨sound₃, b₃, -, -, -⟩ := Run.forward sound₂ run₃
  obtain ⟨sound₄, b₄, front⟩ := many_reaches (taskItem_reaches rules) startsTaskItem sound₃ hbefore
  obtain ⟨sound₅, b₅, middle⟩ := command_reaches rules sound₄ hc
  obtain ⟨sound₆, b₆, back⟩ := many_reaches (taskItem_reaches rules) startsTaskItem sound₅ hbehind
  obtain ⟨sound₇, b₇, front₇, back₇, lt₇⟩ := Run.forward sound₆ run₇
  have whole := b₁.trans (b₂.trans (b₃.trans (b₄.trans (b₅.trans b₆))))
  refine ⟨sound₇, whole.trans b₇, Run.closed sound₆ run₇ (by rw [kind]; rfl), fun T built => ?_⟩
  obtain ⟨xs, hxs, built⟩ := Builder.gives_bind built
  obtain ⟨C, hC, built⟩ := Builder.gives_bind built
  obtain ⟨ys, hys, built⟩ := Builder.gives_bind built
  obtain ⟨-, -, built⟩ := Builder.gives_bind built
  obtain ⟨range, sub⟩ := Build.assembleTask_children (Builder.gives_check built)
  have first := front xs (Builder.gives_each hxs)
  have second := middle C hC
  have third := back ys (Builder.gives_each hys)
  have laid := first.append (second.append third b₅.front sound₅.ordered b₆.back) b₄.front
    sound₄.ordered (b₅.trans b₆).back
  -- the command stands between other items, and is built into a field of its own
  have order : (xs.flatMap (Build.Item.nodes Node.decl) ++
      ([Node.command C] ++ ys.flatMap (Build.Item.nodes Node.decl))).Perm
      ((xs ++ ys).flatMap (Build.Item.nodes Node.decl) ++ [Node.command C]) := by
    rw [List.flatMap_append, List.append_assoc]
    exact List.perm_append_comm.append_left _
  have ordered := whole.front
  refine Laid.node (n := .task T) ?_ ?_ (by omega) trivial
  · exact (laid.subperm (sub.trans order.symm.subperm)).widen (b₁.trans (b₂.trans b₃)).front b₇.back
  · show T.range = _
    rw [range, front₁, back₇]

/-! ## Calls

The range of a call ends where the last of its parts does that is there, so each of the three
optional parts is followed by what it says about the end. -/

/-- A name that stands for itself among the inputs of a call. -/
theorem shorthand_laid {t : Token} {after : Expect} (sound : s.Sound fe cs)
    (run : Run fe.next s [⟨t, after⟩] s') (kind : t.kind = .name)
    (allowed : Build.checkName rules (word t) = .ok ()) :
    Laid fe rules cs s.front s'.back [.expr (.ident t.range t.text)] := by
  obtain ⟨sound', -, front, back, lt⟩ := Run.forward sound run
  obtain ⟨A, c, on, found⟩ := sound.found
  rw [run.ahead_eq] at found
  have range := Run.range_eq sound run
  refine Laid.single
    (Laid.wrap (n := .expr (.ident t.range t.text)) Laid.nil range (by omega) ?_) ?_
  · exact Origin.shorthand on found kind allowed
  · show t.range.Within _
    rw [range]
    exact .refl _

/-- An input reaches to the end of its value, or it is a name that stands for itself. -/
theorem callInput_reaches (rules : Rules) :
    Reaches fe cs (callInput fe.next) (Yields fe rules cs
      (fun i (y : String × Expr) => Build.callInput rules i = .ok y) fun y => [.expr y.2]) := by
  intro s s' i sound h
  rw [callInput] at h
  obtain ⟨_, s₁, hname, h⟩ := bind_eq_ok.1 h
  obtain ⟨name, kind, rfl, run₁⟩ := takeName_eq_ok.1 hname
  obtain ⟨sound₁, b₁, -, -, -⟩ := Run.forward sound run₁
  rw [optionalSymbol_bind] at h
  rcases h with ⟨equal, s₂, -, run₂, h⟩ | ⟨-, h⟩
  · obtain ⟨σ, s₃, hσ, h⟩ := bind_eq_ok.1 h
    obtain ⟨rfl, rfl⟩ := pure_eq_ok.1 h
    obtain ⟨sound₂, b₂, -, -, -⟩ := Run.forward sound₁ run₂
    obtain ⟨sound₃, b₃, -, -, laid⟩ :=
      expr_reaches rules sound₂ (Run.started_single sound₁ run₂) hσ
    refine ⟨sound₃, b₁.trans (b₂.trans b₃), fun y built => ?_⟩
    obtain ⟨e, he, -, rfl⟩ := by
      simpa [Build.callInput, Build.initializer] using built
    exact (laid e he).widen (b₁.trans b₂).front (Nat.le_refl _)
  · obtain ⟨rfl, rfl⟩ := pure_eq_ok.1 h
    refine ⟨sound₁, b₁, fun y built => ?_⟩
    obtain ⟨⟨⟨⟩, allowed⟩, rfl⟩ := by simpa [Build.callInput, Build.initializer] using built
    exact shorthand_laid sound run₁ kind allowed

/-- Without braces the inputs of a call are none, and end where the call does. -/
theorem callInputs_reaches (rules : Rules) {is : List Surface.CallInput} {stop : Nat}
    (sound : s.Sound fe cs) (h : callInputs fe.next s.back s = .ok ((is, stop), s')) :
    s'.Sound fe cs ∧ s.Before s' ∧ stop = s'.back ∧
      ∀ ys, is.mapM (Build.callInput rules) = .ok ys →
        Laid fe rules cs s.front s'.back (memberNodes ys) := by
  rw [callInputs, optionalSymbol_bind] at h
  rcases h with ⟨brace, s₁, -, run₁, h⟩ | ⟨-, h⟩
  · obtain ⟨sound₁, b₁, -, -, -⟩ := Run.forward sound run₁
    -- the word `input` may stand in front of them
    have goOn : ∀ {t : State}, t.Sound fe cs → s.Before t →
        (do let inputs ← commaList fe.next .braceClose Expect.entries (callInput fe.next)
            let close ← takeSymbol fe.next .braceClose Expect.workflowBody
            return (inputs, close.stop) :
          Parser (List Surface.CallInput × Nat)) t = .ok ((is, stop), s') →
        s'.Sound fe cs ∧ s.Before s' ∧ stop = s'.back ∧
          ∀ ys, is.mapM (Build.callInput rules) = .ok ys →
            Laid fe rules cs s.front s'.back (memberNodes ys) := by
      intro t soundt st h
      simp only [bind_eq_ok, takeSymbol_eq_ok, pure_eq_ok] at h
      obtain ⟨is, s₂, his, close, s₃, ⟨-, run₃⟩, eq, rfl⟩ := h
      cases eq
      obtain ⟨sound₂, b₂, yields⟩ :=
        commaList_reaches (callInput_reaches rules) .braceClose Expect.entries soundt his
      obtain ⟨sound₃, b₃, -, back₃, -⟩ := Run.forward sound₂ run₃
      refine ⟨sound₃, st.trans (b₂.trans b₃), back₃.symm, fun ys built => ?_⟩
      have laid := yields ys (Build.mapM_eq_ok.1 built)
      rw [← List.map_eq_flatMap] at laid
      exact laid.widen st.front b₃.back
    rw [sees_bind] at h
    rcases h with ⟨-, h⟩ | ⟨-, h⟩
    · simp only [bind_eq_ok, shift_eq_ok, takeSymbol_eq_ok] at h
      obtain ⟨word, s₂, run₂, colon, s₃, ⟨-, run₃⟩, h⟩ := h
      obtain ⟨sound₂, b₂, -, -, -⟩ := Run.forward sound₁ run₂
      obtain ⟨sound₃, b₃, -, -, -⟩ := Run.forward sound₂ run₃
      refine goOn sound₃ (b₁.trans (b₂.trans b₃)) ?_
      simpa only [bind_eq_ok, takeSymbol_eq_ok] using h
    · exact goOn sound₁ b₁ h
  · obtain ⟨eq, rfl⟩ := pure_eq_ok.1 h
    cases eq
    refine ⟨sound, .refl _, rfl, ?_⟩
    rintro ys ⟨⟩
    exact Laid.nil

/-- The last name of a callee ends it. -/
theorem calleeUpTo_reaches {n : Nat} {ws : List Surface.Word} {last : Surface.Word}
    (sound : s.Sound fe cs) (back : last.range.stop = s.back)
    (h : calleeUpTo fe.next n s = .ok (ws, s')) :
    s'.Sound fe cs ∧ s.Before s' ∧ (ws.getLast?.getD last).range.stop = s'.back := by
  induction n generalizing s ws last with
  | zero =>
    obtain ⟨rfl, rfl⟩ := pure_eq_ok.1 h
    exact ⟨sound, .refl _, back⟩
  | succ n ih =>
    rw [calleeUpTo, optionalSymbol_bind] at h
    rcases h with ⟨dot, s₁, -, run₁, h⟩ | ⟨-, h⟩
    · simp only [bind_eq_ok, takeName_eq_ok, pure_eq_ok] at h
      obtain ⟨_, s₂, ⟨name, -, rfl, run₂⟩, rest, s₃, hrest, rfl, rfl⟩ := h
      obtain ⟨sound₁, b₁, -, -, -⟩ := Run.forward sound run₁
      obtain ⟨sound₂, b₂, -, back₂, -⟩ := Run.forward sound₁ run₂
      have here : (word name).range.stop = s₂.back := back₂.symm
      obtain ⟨sound₃, b₃, back₃⟩ := ih sound₂ here hrest
      refine ⟨sound₃, b₁.trans (b₂.trans b₃), ?_⟩
      rw [List.getLast?_cons]
      exact back₃
    · obtain ⟨rfl, rfl⟩ := pure_eq_ok.1 h
      exact ⟨sound, .refl _, back⟩

/-- A name that is given behind `as` is the last thing that is read. -/
theorem asName_reaches {after : Expect} {w : Option Surface.Word} (sound : s.Sound fe cs)
    (h : (do
      if ← sees (.keyword .kwAs) then
        let _ ← shift fe.next Expect.aName
        return some (← takeName fe.next after)
      else return none : Parser (Option Surface.Word)) s = .ok (w, s')) :
    (w = none ∧ s' = s) ∨ ∃ name, w = some name ∧ s'.Sound fe cs ∧ s.Before s' ∧
      Closed cs s'.back ∧ name.range.stop = s'.back := by
  rw [sees_bind] at h
  rcases h with ⟨-, h⟩ | ⟨-, h⟩
  · simp only [bind_eq_ok, shift_eq_ok, takeName_eq_ok, pure_eq_ok] at h
    obtain ⟨as, s₁, run₁, _, s₂, ⟨name, kind, rfl, run₂⟩, rfl, rfl⟩ := h
    obtain ⟨sound₁, b₁, -, -, -⟩ := Run.forward sound run₁
    obtain ⟨sound₂, b₂, -, back₂, -⟩ := Run.forward sound₁ run₂
    exact .inr ⟨word name, rfl, sound₂, b₁.trans b₂, Run.closed sound₁ run₂ (by rw [kind]; rfl),
      back₂.symm⟩
  · obtain ⟨rfl, rfl⟩ := pure_eq_ok.1 h
    exact .inl ⟨rfl, rfl⟩

/-- A call with a name of its own ends with that name, as far as it is read. -/
theorem callName_reaches {w : Option Surface.Word} {callee : Surface.Word} (sound : s.Sound fe cs)
    (back : callee.range.stop = s.back) (h : callName fe.next s = .ok (w, s')) :
    s'.Sound fe cs ∧ s.Before s' ∧ (w.getD callee).range.stop = s'.back := by
  rcases asName_reaches sound h with ⟨rfl, rfl⟩ | ⟨name, rfl, sound', before, -, stop⟩
  · exact ⟨sound, .refl _, back⟩
  · exact ⟨sound', before, stop⟩

/-- A call ends with its inputs, with its given name or with its callee. -/
theorem call_reaches (rules : Rules) :
    Reaches fe cs (call fe.next)
      (Yields fe rules cs (fun c C => Build.call rules c = .ok C) fun C => [.call C]) := by
  intro s s' c sound h
  simp only [call, bind_eq_ok, takeKeyword_eq_ok, takeName_eq_ok, remaining_eq_ok, pure_eq_ok] at h
  obtain ⟨start, s₁, ⟨-, run₁⟩, _, s₂, ⟨first, -, rfl, run₂⟩, n, _, ⟨-, rfl⟩, rest, s₃, hrest,
    given, s₄, hgiven, ⟨inputs, stop⟩, s₅, hinputs, rfl, rfl⟩ := h
  obtain ⟨sound₁, b₁, front₁, back₁, lt₁⟩ := Run.forward sound run₁
  obtain ⟨sound₂, b₂, -, back₂, -⟩ := Run.forward sound₁ run₂
  have here : (word first).range.stop = s₂.back := back₂.symm
  obtain ⟨sound₃, b₃, back₃⟩ := calleeUpTo_reaches sound₂ here hrest
  obtain ⟨sound₄, b₄, back₄⟩ := callName_reaches sound₃ back₃ hgiven
  rw [back₄] at hinputs
  obtain ⟨sound₅, b₅, back₅, laid⟩ := callInputs_reaches rules sound₄ hinputs
  have whole := b₁.trans (b₂.trans (b₃.trans b₄))
  refine ⟨sound₅, whole.trans b₅, fun C built => ?_⟩
  simp only [Build.call, Build.bind_eq_ok, Build.pure_eq_ok] at built
  obtain ⟨ys, hys, -, -, rfl⟩ := built
  have ordered := (b₂.trans (b₃.trans (b₄.trans b₅))).back
  refine Laid.node (n := .call _) ?_ ?_ (by omega) trivial
  · exact (laid ys hys).widen whole.front (Nat.le_refl _)
  · show Range.mk _ _ = _
    rw [front₁, back₅]

/-! ## Workflows

A scatter and a conditional hold a body, so the lemmas about them assume one about the elements of
bodies. -/

/-- The elements of a body are built one by one. -/
theorem workflowNodes_eq_ok {ns : List Surface.WorkflowNode} {Ns : List WorkflowNode}
    (h : Build.workflowNodes rules ns = .ok Ns) :
    List.Forall₂ (fun n N => Build.workflowNode rules n = .ok N) ns Ns := by
  induction ns generalizing Ns with
  | nil => cases h; exact .nil
  | cons n ns ih =>
    obtain ⟨N, hN, rest, hrest, rfl⟩ := by simpa [Build.workflowNodes] using h
    exact .cons hN (ih hrest)

/-- What is built from an element of a workflow's body is laid out where it stands. -/
abbrev NodeIn (fe : FrontEnd) (rules : Rules) (cs : List Char) :
    Nat → Nat → Surface.WorkflowNode → Prop :=
  Yields fe rules cs (fun n N => Build.workflowNode rules n = .ok N) fun N => [N.node]

section Nested

variable {node : Parser Surface.WorkflowNode}

/-- The elements of a body are laid out between its braces. -/
theorem nestedBody_reaches (h : Reaches fe cs node (NodeIn fe rules cs))
    {body : List Surface.WorkflowNode} {stop : Nat} (sound : s.Sound fe cs)
    (hb : nestedBody fe.next node s = .ok ((body, stop), s')) :
    s'.Sound fe cs ∧ s.Before s' ∧ stop = s'.back ∧
      ∀ Ns, Build.workflowNodes rules body = .ok Ns →
        Laid fe rules cs s.front s'.back (Ns.map WorkflowNode.node) := by
  simp only [nestedBody, bind_eq_ok, takeSymbol_eq_ok, pure_eq_ok] at hb
  obtain ⟨brace, s₁, ⟨-, run₁⟩, body', s₂, hbody, close, s₃, ⟨-, run₃⟩, eq, rfl⟩ := hb
  cases eq
  obtain ⟨sound₁, b₁, -, -, -⟩ := Run.forward sound run₁
  obtain ⟨sound₂, b₂, yields⟩ := many_reaches h startsWorkflowNode sound₁ hbody
  obtain ⟨sound₃, b₃, -, back₃, -⟩ := Run.forward sound₂ run₃
  refine ⟨sound₃, b₁.trans (b₂.trans b₃), back₃.symm, fun Ns built => ?_⟩
  have laid := yields Ns (workflowNodes_eq_ok built)
  rw [← List.map_eq_flatMap] at laid
  exact laid.widen b₁.front b₃.back

theorem scatter_reaches (h : Reaches fe cs node (NodeIn fe rules cs)) :
    Reaches fe cs (scatter fe.next node) (NodeIn fe rules cs) := by
  intro s s' x sound hs
  simp only [scatter, bind_eq_ok, takeKeyword_eq_ok, takeName_eq_ok, takeSymbol_eq_ok,
    pure_eq_ok] at hs
  obtain ⟨start, s₁, ⟨-, run₁⟩, paren, s₂, ⟨-, run₂⟩, _, s₃, ⟨item, -, rfl, run₃⟩, inWord, s₄,
    ⟨-, run₄⟩, σ, s₅, hσ, close, s₆, ⟨-, run₆⟩, ⟨body, stop⟩, s₇, hbody, rfl, rfl⟩ := hs
  obtain ⟨sound₁, b₁, front₁, back₁, lt₁⟩ := Run.forward sound run₁
  obtain ⟨sound₂, b₂, -, -, -⟩ := Run.forward sound₁ run₂
  obtain ⟨sound₃, b₃, -, -, -⟩ := Run.forward sound₂ run₃
  obtain ⟨sound₄, b₄, -, -, -⟩ := Run.forward sound₃ run₄
  obtain ⟨sound₅, b₅, -, -, first⟩ := expr_reaches rules sound₄ (Run.started_single sound₃ run₄) hσ
  obtain ⟨sound₆, b₆, -, -, -⟩ := Run.forward sound₅ run₆
  obtain ⟨sound₇, b₇, back₇, second⟩ := nestedBody_reaches h sound₆ hbody
  have toExpr := b₁.trans (b₂.trans (b₃.trans b₄))
  have fromExpr := b₅.trans (b₆.trans b₇)
  refine ⟨sound₇, toExpr.trans fromExpr, fun N built => ?_⟩
  simp only [Build.workflowNode, Build.bind_eq_ok, Build.pure_eq_ok] at built
  obtain ⟨e, he, Ns, hNs, -, -, rfl⟩ := built
  have laid := ((first e he).widen (Nat.le_refl _) b₆.back).append (second Ns hNs)
    (b₅.trans b₆).front sound₆.ordered b₇.back
  have ordered := (b₂.trans (b₃.trans (b₄.trans fromExpr))).back
  refine Laid.node (n := .scatter _ Ns item.text e) ?_ ?_ (by omega) trivial
  · exact laid.widen toExpr.front (Nat.le_refl _)
  · show Range.mk _ _ = _
    rw [front₁, back₇]

theorem conditional_reaches (h : Reaches fe cs node (NodeIn fe rules cs)) :
    Reaches fe cs (conditional fe.next node) (NodeIn fe rules cs) := by
  intro s s' x sound hc
  simp only [conditional, bind_eq_ok, takeKeyword_eq_ok, takeSymbol_eq_ok, pure_eq_ok] at hc
  obtain ⟨start, s₁, ⟨-, run₁⟩, paren, s₂, ⟨-, run₂⟩, σ, s₃, hσ, close, s₄, ⟨-, run₄⟩,
    ⟨body, stop⟩, s₅, hbody, rfl, rfl⟩ := hc
  obtain ⟨sound₁, b₁, front₁, back₁, lt₁⟩ := Run.forward sound run₁
  obtain ⟨sound₂, b₂, -, -, -⟩ := Run.forward sound₁ run₂
  obtain ⟨sound₃, b₃, -, -, first⟩ := expr_reaches rules sound₂ (Run.started_single sound₁ run₂) hσ
  obtain ⟨sound₄, b₄, -, -, -⟩ := Run.forward sound₃ run₄
  obtain ⟨sound₅, b₅, back₅, second⟩ := nestedBody_reaches h sound₄ hbody
  have toExpr := b₁.trans b₂
  have fromExpr := b₃.trans (b₄.trans b₅)
  refine ⟨sound₅, toExpr.trans fromExpr, fun N built => ?_⟩
  simp only [Build.workflowNode, Build.bind_eq_ok, Build.pure_eq_ok] at built
  obtain ⟨e, he, Ns, hNs, rfl⟩ := built
  have laid := ((first e he).widen (Nat.le_refl _) b₄.back).append (second Ns hNs)
    (b₃.trans b₄).front sound₄.ordered b₅.back
  have ordered := (b₂.trans fromExpr).back
  refine Laid.node (n := .conditional _ Ns e) ?_ ?_ (by omega) trivial
  · exact laid.widen toExpr.front (Nat.le_refl _)
  · show Range.mk _ _ = _
    rw [front₁, back₅]

end Nested

/-- An element of a body is laid out where it stands, however deeply bodies are nested in it. -/
theorem nodeUpTo_reaches (rules : Rules) (n : Nat) :
    Reaches fe cs (nodeUpTo fe.next n) (NodeIn fe rules cs) := by
  induction n with
  | zero => intro s s' x sound h; exact (reject_ne_ok.1 h).elim
  | succ n ih =>
    have decl : Reaches fe cs (do return .decl (← boundDecl fe.next)) (NodeIn fe rules cs) := by
      refine Reaches.wrapped (boundDecl_reaches rules) fun yields N built => ?_
      obtain ⟨D, hD, rfl⟩ := by simpa [Build.workflowNode] using built
      exact yields D hD
    have call : Reaches fe cs (do return .call (← call fe.next)) (NodeIn fe rules cs) := by
      refine Reaches.wrapped (call_reaches rules) fun yields N built => ?_
      obtain ⟨C, hC, rfl⟩ := by simpa [Build.workflowNode] using built
      exact yields C hC
    intro s s' x sound h
    rw [nodeUpTo, peek_bind] at h
    cases seen : s.kind? with
    | none => rw [seen] at h; exact decl sound h
    | some k =>
      rw [seen] at h
      cases k with
      | keyword k =>
        cases k
        case kwCall => exact call sound h
        case kwScatter => exact scatter_reaches ih sound h
        case kwIf => exact conditional_reaches ih sound h
        all_goals exact decl sound h
      | _ => exact decl sound h

/-- The surface item of a workflow yields the nodes of what is built from it. -/
def WorkflowItemIn (fe : FrontEnd) (rules : Rules) (cs : List Char) :
    Nat → Nat → Surface.WorkflowItem → Prop :=
  Yields fe rules cs (fun i I => Build.workflowItem rules i = .ok I)
    (Build.Item.nodes WorkflowNode.node)

/-- What an item of a workflow is, is told from the terminal ahead of it. -/
theorem workflowItem_reaches (rules : Rules) :
    Reaches fe cs (workflowItem fe.next) (WorkflowItemIn fe rules cs) := by
  have inputs : Reaches fe cs
      (do let x ← declSection fe.next .kwInput; return .inputs x.1 x.2)
      (WorkflowItemIn fe rules cs) := by
    refine Reaches.wrapped (@declSection_reaches fe cs rules .kwInput) ?_
    rintro a b ⟨r, ds⟩ ⟨-, -, yields⟩ I built
    obtain ⟨Ds, hDs, rfl⟩ := by simpa [Build.workflowItem] using built
    exact declSection_inputs yields hDs
  have outputs : Reaches fe cs
      (do let x ← declSection fe.next .kwOutput; return .outputs x.1 x.2)
      (WorkflowItemIn fe rules cs) := by
    refine Reaches.wrapped (@declSection_reaches fe cs rules .kwOutput) ?_
    rintro a b ⟨r, ds⟩ ⟨-, -, yields⟩ I built
    obtain ⟨Ds, hDs, rfl⟩ := by simpa [Build.workflowItem] using built
    exact declSection_outputs yields hDs
  have metadata : ∀ k kind, Reaches fe cs
      (do return .metadata (← metaSection fe.next k kind)) (WorkflowItemIn fe rules cs) := by
    intro k kind
    refine Reaches.wrapped (metaSection_reaches rules k kind) fun yields I built => ?_
    obtain ⟨S, hS, rfl⟩ := by simpa [Build.workflowItem] using built
    exact yields S hS
  have node : ∀ n, Reaches fe cs (do return .node (← nodeUpTo fe.next n))
      (WorkflowItemIn fe rules cs) := by
    intro n
    refine Reaches.wrapped (nodeUpTo_reaches rules n) fun yields I built => ?_
    obtain ⟨N, hN, rfl⟩ := by simpa [Build.workflowItem] using built
    exact yields N hN
  intro s s' i sound h
  rw [workflowItem, peek_bind] at h
  cases seen : s.kind? with
  | none => rw [seen] at h; exact node _ sound h
  | some k =>
    rw [seen] at h
    cases k with
    | keyword k =>
      cases k
      case kwInput => exact inputs sound h
      case kwOutput => exact outputs sound h
      case kwMeta => exact metadata .kwMeta _ sound h
      case kwParameterMeta => exact metadata .kwParameterMeta _ sound h
      all_goals exact node _ sound h
    | _ => exact node _ sound h

theorem workflow_reaches (rules : Rules) :
    Reaches fe cs (workflow fe.next) fun a b w => Closed cs b ∧
      Yields fe rules cs (fun w W => Build.workflow rules w = .ok W) (fun W => [.workflow W])
        a b w := by
  intro s s' w sound h
  simp only [workflow, bind_eq_ok, takeKeyword_eq_ok, takeName_eq_ok, takeSymbol_eq_ok,
    pure_eq_ok] at h
  obtain ⟨start, s₁, ⟨-, run₁⟩, _, s₂, ⟨name, -, rfl, run₂⟩, brace, s₃, ⟨-, run₃⟩, items, s₄,
    hitems, close, s₅, ⟨kind, run₅⟩, rfl, rfl⟩ := h
  obtain ⟨sound₁, b₁, front₁, -, -⟩ := Run.forward sound run₁
  obtain ⟨sound₂, b₂, -, -, -⟩ := Run.forward sound₁ run₂
  obtain ⟨sound₃, b₃, -, -, -⟩ := Run.forward sound₂ run₃
  obtain ⟨sound₄, b₄, yields⟩ :=
    many_reaches (workflowItem_reaches rules) startsWorkflowItem sound₃ hitems
  obtain ⟨sound₅, b₅, front₅, back₅, lt₅⟩ := Run.forward sound₄ run₅
  have whole := b₁.trans (b₂.trans (b₃.trans b₄))
  refine ⟨sound₅, whole.trans b₅, Run.closed sound₄ run₅ (by rw [kind]; rfl), fun W built => ?_⟩
  simp only [Build.workflow, Build.bind_eq_ok] at built
  obtain ⟨xs, hxs, -, -, built⟩ := built
  obtain ⟨range, sub⟩ := Build.assembleWorkflow_children built
  have laid := (yields xs (Build.mapM_eq_ok.1 hxs)).subperm sub
  have ordered := whole.front
  refine Laid.node (n := .workflow W) ?_ ?_ (by omega) trivial
  · exact laid.widen (b₁.trans (b₂.trans b₃)).front b₅.back
  · show W.range = _
    rw [range, front₁, back₅]

/-! ## Documents

The elements of a document end with a closing brace, a name, a closing quote or the identifier of a
version. No line break ends any of them. -/

/-- An alias ends with its second name. -/
theorem importAlias_stop :
    Reaches fe cs (importAlias fe.next) fun _ b a => Closed cs b ∧ a.range.stop = b := by
  intro s s' a sound h
  simp only [importAlias, bind_eq_ok, takeKeyword_eq_ok, takeName_eq_ok, pure_eq_ok] at h
  obtain ⟨start, s₁, ⟨-, run₁⟩, _, s₂, ⟨source, -, rfl, run₂⟩, as, s₃, ⟨-, run₃⟩, _, s₄,
    ⟨target, kind, rfl, run₄⟩, rfl, rfl⟩ := h
  obtain ⟨sound₁, b₁, -, -, -⟩ := Run.forward sound run₁
  obtain ⟨sound₂, b₂, -, -, -⟩ := Run.forward sound₁ run₂
  obtain ⟨sound₃, b₃, -, -, -⟩ := Run.forward sound₂ run₃
  obtain ⟨sound₄, b₄, -, back₄, -⟩ := Run.forward sound₃ run₄
  exact ⟨sound₄, b₁.trans (b₂.trans (b₃.trans b₄)), Run.closed sound₃ run₄ (by rw [kind]; rfl),
    back₄.symm⟩

/-- Up to its namespace, an import ends with that name, or with its URI. -/
theorem importName_reaches {w : Option Surface.Word} {r : Range} (sound : s.Sound fe cs)
    (closed : Closed cs s.back) (back : r.stop = s.back)
    (h : importName fe.next s = .ok (w, s')) :
    s'.Sound fe cs ∧ s.Before s' ∧ Closed cs s'.back ∧
      ((w.map Surface.Word.range).getD r).stop = s'.back := by
  rcases asName_reaches sound h with ⟨rfl, rfl⟩ | ⟨name, rfl, sound', before, closed', stop⟩
  · exact ⟨sound, .refl _, closed, back⟩
  · exact ⟨sound', before, closed', stop⟩

/-- An import ends with its aliases, with its namespace or with its URI. -/
theorem importDoc_reaches (rules : Rules) :
    Reaches fe cs (importDoc fe.next) fun a b i => Closed cs b ∧
      Yields fe rules cs (fun i I => Build.importDoc rules i = .ok I) (fun I => [.importDoc I])
        a b i := by
  intro s s' i sound h
  simp only [importDoc, bind_eq_ok, takeKeyword_eq_ok, takeQuoted_eq_ok, pure_eq_ok] at h
  obtain ⟨start, s₁, ⟨-, run₁⟩, _, s₂, ⟨uri, q, kind, rfl, run₂⟩, name, s₃, hname, as, s₄, has,
    rfl, rfl⟩ := h
  obtain ⟨sound₁, b₁, front₁, back₁, lt₁⟩ := Run.forward sound run₁
  obtain ⟨sound₂, b₂, -, back₂, -⟩ := Run.forward sound₁ run₂
  have closed₂ := Run.closed sound₁ run₂ (by rw [kind]; rfl)
  obtain ⟨sound₃, b₃, closed₃, back₃⟩ :=
    importName_reaches (r := uri.range) sound₂ closed₂ back₂.symm hname
  have stops : Reaches fe cs (importAlias fe.next) fun _ b a => a.range.stop = b :=
    Reaches.imp (@importAlias_stop fe cs) And.right
  obtain ⟨sound₄, b₄, back₄⟩ := many_stop stops sound₃ has
  have closed₄ := many_closed (fun sound h => ⟨(importAlias_stop sound h).1,
    (importAlias_stop sound h).2.2.1⟩) sound₃ closed₃ has
  have ordered := (b₂.trans (b₃.trans b₄)).back
  refine ⟨sound₄, b₁.trans (b₂.trans (b₃.trans b₄)), closed₄, fun I built => ?_⟩
  -- the last alias ends the import, or without aliases what was read up to them
  have range : I.range = ⟨start.start, s₄.back⟩ := by
    obtain ⟨text, -, built⟩ := Build.bind_eq_ok.1 built
    obtain ⟨aliases, -, built⟩ := Build.bind_eq_ok.1 built
    dsimp only at built
    split at built
    · exact (Build.violate_ne_ok.1 built).elim
    · simp only [Build.bind_eq_ok, Build.pure_eq_ok] at built
      obtain ⟨-, -, rfl⟩ := built
      show Range.mk _ _ = _
      rw [← back₄, ← back₃]
      cases as.getLast? <;> rfl
  exact Laid.node (n := .importDoc I) Laid.nil (by rw [front₁]; exact range) (by omega) trivial

/-- The members of a struct are laid out between its braces. -/
theorem structDef_reaches (rules : Rules) :
    Reaches fe cs (structDef fe.next) fun a b d => Closed cs b ∧
      Yields fe rules cs (fun d D => Build.structDef rules d = .ok D) (fun D => [.structDef D])
        a b d := by
  intro s s' d sound h
  simp only [structDef, bind_eq_ok, takeKeyword_eq_ok, takeName_eq_ok, takeSymbol_eq_ok,
    pure_eq_ok] at h
  obtain ⟨start, s₁, ⟨-, run₁⟩, _, s₂, ⟨name, -, rfl, run₂⟩, brace, s₃, ⟨-, run₃⟩, ms, s₄, hms,
    close, s₅, ⟨kind, run₅⟩, rfl, rfl⟩ := h
  obtain ⟨sound₁, b₁, front₁, -, -⟩ := Run.forward sound run₁
  obtain ⟨sound₂, b₂, -, -, -⟩ := Run.forward sound₁ run₂
  obtain ⟨sound₃, b₃, -, -, -⟩ := Run.forward sound₂ run₃
  obtain ⟨sound₄, b₄, yields⟩ := many_reaches (unboundDecl_reaches rules) isName sound₃ hms
  obtain ⟨sound₅, b₅, front₅, back₅, lt₅⟩ := Run.forward sound₄ run₅
  have whole := b₁.trans (b₂.trans (b₃.trans b₄))
  refine ⟨sound₅, whole.trans b₅, Run.closed sound₄ run₅ (by rw [kind]; rfl), fun D built => ?_⟩
  simp only [Build.structDef, Build.bind_eq_ok, Build.pure_eq_ok] at built
  obtain ⟨Ds, hDs, -, -, -, -, rfl⟩ := built
  have laid := yields Ds (Build.mapM_eq_ok.1 hDs)
  rw [flatMap_declNodes] at laid
  have ordered := whole.front
  refine Laid.node (n := .structDef _) ?_ ?_ (by omega) trivial
  · exact laid.widen (b₁.trans (b₂.trans b₃)).front b₅.back
  · show Range.mk _ _ = _
    rw [front₁, back₅]

/-- What is built from an element of a document is laid out where it stands. -/
def ElementIn (fe : FrontEnd) (rules : Rules) (cs : List Char) :
    Nat → Nat → Surface.Element → Prop :=
  Yields fe rules cs (fun x X => (Build.element rules x).Gives X) fun X => [X.node]

/-- A version statement ends with its identifier. -/
theorem version_reaches (rules : Rules) :
    Reaches fe cs (version fe.next) fun a b x => Closed cs b ∧ ElementIn fe rules cs a b x := by
  intro s s' x sound h
  simp only [version, bind_eq_ok, takeKeyword_eq_ok, take_eq_ok, pure_eq_ok] at h
  obtain ⟨start, s₁, ⟨-, run₁⟩, identifier, s₂, ⟨kind, run₂⟩, rfl, rfl⟩ := h
  obtain ⟨sound₁, b₁, front₁, back₁, lt₁⟩ := Run.forward sound run₁
  obtain ⟨sound₂, b₂, -, back₂, -⟩ := Run.forward sound₁ run₂
  refine ⟨sound₂, b₁.trans b₂, Run.closed sound₁ run₂ (by rw [kind]; rfl), fun X built => ?_⟩
  obtain ⟨V, hV, built⟩ := Builder.gives_bind built
  cases Builder.gives_pure built
  have range : V.range = ⟨s.front, s₂.back⟩ := by
    have checked := Builder.gives_check hV
    unfold Build.version at checked
    split at checked
    · cases checked
      show Range.mk _ _ = _
      rw [front₁, back₂]
    · exact (Build.violate_ne_ok.1 checked).elim
  have ordered := b₂.back
  exact Laid.node (n := .version V) Laid.nil range (by omega) trivial

/-- An element that wraps a part of a document and is built by building that part. -/
theorem element_wrapped {rules : Rules} {p : Parser α} {f : α → Surface.Element}
    {B : α → β → Prop} {nodes : β → List Node}
    (h : Reaches fe cs p fun a b x => Closed cs b ∧ Yields fe rules cs B nodes a b x)
    (built : ∀ {x X}, (Build.element rules (f x)).Gives X → ∃ y, B x y ∧ nodes y = [X.node]) :
    Reaches fe cs (do return f (← p)) fun a b x => Closed cs b ∧ ElementIn fe rules cs a b x := by
  intro s s' x sound hp
  obtain ⟨x, u, hx, hp⟩ := bind_eq_ok.1 hp
  obtain ⟨rfl, rfl⟩ := pure_eq_ok.1 hp
  obtain ⟨sound', before, closed, yields⟩ := h sound hx
  refine ⟨sound', before, closed, fun X hX => ?_⟩
  obtain ⟨y, hy, same⟩ := built hX
  show Laid fe rules cs s.front u.back [X.node]
  rw [← same]
  exact yields y hy

/-- What an element of a document is, is told from the terminal ahead of it. -/
theorem element_reaches (rules : Rules) :
    Reaches fe cs (element fe.next) fun a b x => Closed cs b ∧ ElementIn fe rules cs a b x := by
  intro s s' x sound h
  rw [element, peek_bind] at h
  have other : (do return .workflow (← workflow fe.next) : Parser Surface.Element) s =
      .ok (x, s') → s'.Sound fe cs ∧ s.Before s' ∧ Closed cs s'.back ∧
        ElementIn fe rules cs s.front s'.back x := by
    refine element_wrapped (f := .workflow) (@workflow_reaches fe cs rules) (fun built => ?_) sound
    obtain ⟨W, hW, built⟩ := Builder.gives_bind built
    exact ⟨W, Builder.gives_check hW, by cases Builder.gives_pure built; rfl⟩
  cases seen : s.kind? with
  | none => rw [seen] at h; exact other h
  | some k =>
    rw [seen] at h
    cases k with
    | keyword k =>
      cases k
      case kwVersion => exact version_reaches rules sound h
      case kwImport =>
        refine element_wrapped (f := .importDoc) (@importDoc_reaches fe cs rules) (fun built => ?_)
          sound h
        obtain ⟨I, hI, built⟩ := Builder.gives_bind built
        exact ⟨I, Builder.gives_check hI, by cases Builder.gives_pure built; rfl⟩
      case kwStruct =>
        refine element_wrapped (f := .struct) (@structDef_reaches fe cs rules) (fun built => ?_)
          sound h
        obtain ⟨D, hD, built⟩ := Builder.gives_bind built
        exact ⟨D, Builder.gives_check hD, by cases Builder.gives_pure built; rfl⟩
      case kwTask =>
        refine element_wrapped (f := .task) (@task_reaches fe cs rules) (fun built => ?_) sound h
        obtain ⟨T, hT, built⟩ := Builder.gives_bind built
        exact ⟨T, hT, by cases Builder.gives_pure built; rfl⟩
      all_goals exact other h
    | _ => exact other h

/-! ## Whole texts

A text is parsed with a line feed added to its end if it has none, and positions are of the text
with that line feed. That they are of the text as it is follows from what elements end with. -/

/-- Behind a position of a text where no line break ends, the added line feed does not count. -/
theorem Closed.le {b : Nat} (closed : Closed (terminated cs) b)
    (le : b ≤ (terminated cs).length) : b ≤ cs.length := by
  unfold terminated at closed le
  split at le
  · exact le
  · rename_i last
    rw [if_neg last] at closed
    rw [List.length_append, List.length_singleton] at le
    -- else it is the end of the text with the line feed, and that line feed ends there
    by_contra long
    have whole : b = (cs ++ ['\n']).length := by
      rw [List.length_append, List.length_singleton]
      omega
    have := closed '\n' (by rw [whole, List.take_length, List.getLast?_concat])
    exact absurd this (by decide)

/-- A text that is parsed as a whole is read from its first token to its end. -/
theorem whole_eq_ok {lex : Scanner} {start : Expect} {p : Parser α} {x : α} :
    whole lex start p cs = .ok x ↔
      ∃ ahead cursor s, lex start ⟨0, terminated cs⟩ = .ok (ahead, cursor) ∧
        p ⟨ahead, cursor, none⟩ = .ok (x, s) ∧ s.ahead = none := by
  unfold whole
  constructor
  · intro h
    split at h
    · cases h
    · rename_i ahead cursor found
      split at h
      · cases h
      · rename_i y s parsed
        split at h
        · rename_i done
          cases h
          exact ⟨ahead, cursor, s, found, parsed, done⟩
        · cases h
  · rintro ⟨ahead, cursor, s, found, parsed, done⟩
    have parsed' : StateT.run p ⟨ahead, cursor, none⟩ = .ok (x, s) := parsed
    simp only [found, parsed', done]

/-- Before anything is taken, the state stands at the first token of the text. -/
theorem sound_start {A : Expect} {ahead : Option Token} {cursor : Cursor}
    (found : fe.next A ⟨0, cs⟩ = .ok (ahead, cursor)) :
    State.Sound fe cs ⟨ahead, cursor, none⟩ := by
  have on : (⟨0, cs⟩ : Cursor).On cs := ⟨Nat.zero_le _, rfl⟩
  refine ⟨?_, ⟨A, _, on, found⟩, Nat.zero_le _⟩
  cases ahead with
  | none => exact (next_none_on found on).1
  | some t => exact (next_some_on found on).2.1

/-- What is built of the elements of a document is laid out between its two ends. -/
theorem document_reaches (rules : Rules) (sound : s.Sound fe cs) (closed : Closed cs s.back)
    {d : Surface.Document} (h : document fe.next s = .ok (d, s')) :
    s'.Sound fe cs ∧ s.Before s' ∧ Closed cs s'.back ∧
      ∀ items, (Build.each (Build.element rules) d.elements).Gives items →
        Laid fe rules cs s.front s'.back (items.map Build.TopLevel.node) := by
  obtain ⟨xs, t, hxs, h⟩ := bind_eq_ok.1 h
  obtain ⟨rfl, rfl⟩ := pure_eq_ok.1 h
  have reaches : Reaches fe cs (element fe.next) (ElementIn fe rules cs) :=
    Reaches.imp (@element_reaches fe cs rules) And.right
  obtain ⟨soundt, before, yields⟩ := many_reaches reaches startsElement sound hxs
  have closedt := many_closed (fun sound h => ⟨(element_reaches rules sound h).1,
    (element_reaches rules sound h).2.2.1⟩) sound closed hxs
  refine ⟨soundt, before, closedt, fun items built => ?_⟩
  have laid := yields items (Builder.gives_each built)
  rwa [← List.map_eq_flatMap] at laid

end Parser

/-! ## What parsing gives -/

open Wdl.Parser

variable {rules : Rules} {source : SourceText}

/-- What is returned was built from a surface form that was parsed. -/
theorem Parsed.ofSurface_eq_ok {α β : Type} {fe : FrontEnd} {surface : Except Rejection α}
    {build : α → Builder β} {y : β} (h : (ofSurface fe surface build).result = .ok y) :
    ∃ x, surface = .ok x ∧ (build x).Gives y := by
  unfold ofSurface at h
  split at h
  · cases h
  · rename_i x
    refine ⟨x, rfl, [], ?_⟩
    unfold ofBuilder at h
    cases run : StateT.run (ExceptT.run (build x)) [] with
    | mk result warnings =>
      rw [run] at h
      cases result with
      | error v => cases h
      | ok z => cases h; exact ⟨_, rfl⟩

/-- What parsing an expression reports, given what building its surface form does. -/
theorem parseExpr_of_surface {σ : Surface.Expr}
    (parsed : Surface.Expr.parse rules.frontEnd.next source.chars = .ok σ) :
    (parseExpr rules source).result =
      (Build.expr rules σ).mapError (ParseError.violated rules.frontEnd) := by
  simp only [parseExpr, Parsed.ofSurface, parsed]
  cases Build.expr rules σ <;> rfl

/-- What is built of the elements of a text is laid out between its two ends. -/
theorem elements_laid {d : Surface.Document}
    (parsed : Surface.Document.parse rules.frontEnd.next source.chars = .ok d)
    {items : List Build.TopLevel}
    (built : (Build.each (Build.element rules) d.elements).Gives items) :
    Laid rules.frontEnd rules (terminated source.chars) 0 source.chars.length
      (items.map Build.TopLevel.node) := by
  obtain ⟨ahead, cursor, s, found, read, -⟩ := whole_eq_ok.1 parsed
  have closed : Closed (terminated source.chars) (State.back ⟨ahead, cursor, none⟩) := by
    intro c hc
    cases hc
  obtain ⟨sound, -, closed, laid⟩ := document_reaches rules (sound_start found) closed read
  have inside := closed.le (Nat.le_trans sound.ordered (State.front_le sound))
  exact (laid items built).widen (Nat.zero_le _) inside

/-- The nodes of a document are in their places in its text. -/
theorem document_sited {d : Document} (h : (parseDocument rules source).result = .ok d) :
    (Node.document d).Everywhere (Sited rules.frontEnd rules (terminated source.chars)) ∧
      d.range.stop ≤ source.chars.length := by
  obtain ⟨x, parsed, built⟩ := Parsed.ofSurface_eq_ok h
  obtain ⟨items, hitems, built⟩ := Builder.gives_bind built
  obtain ⟨range, perm⟩ := Build.assembleDocument_children (Builder.gives_check built)
  have stop : d.range.stop = source.chars.length := by
    rw [range]
    exact source.length_eq
  refine ⟨?_, Nat.le_of_eq stop⟩
  have all := (elements_laid parsed hitems).subperm perm.subperm
  refine all.wrap ?_ (Nat.zero_le _) trivial
  show d.range = _
  rw [← stop, range]
  rfl

/-- The nodes of an expression are in their places in its text. -/
theorem expr_sited {e : Expr} (h : (parseExpr rules source).result = .ok e) :
    (Node.expr e).Everywhere (Sited rules.frontEnd rules (terminated source.chars)) ∧
      e.range.stop ≤ source.chars.length := by
  obtain ⟨σ, parsed, built⟩ := Parsed.ofSurface_eq_ok h
  obtain ⟨ahead, cursor, s, found, read, -⟩ := whole_eq_ok.1 parsed
  have built := Builder.gives_check built
  have sound := sound_start found
  -- an expression may start at the beginning of a text, where nothing was read
  have started : State.Started rules.frontEnd (terminated source.chars) ⟨ahead, cursor, none⟩ :=
    ⟨Expect.expr, by simp [openings], _, ⟨Nat.zero_le _, rfl⟩, found⟩
  obtain ⟨xs, run, script, -⟩ := expr_reads (forward_next _) _ s σ read
  obtain ⟨sound', -⟩ := Run.sound sound run
  refine ⟨(script.written built).sited sound started run, ?_⟩
  obtain ⟨-, -, range, -, -⟩ := expr_reaches rules sound started read
  rw [Build.expr_range rules σ built, range]
  exact (expr_closed sound read).le (Nat.le_trans sound'.ordered (State.front_le sound'))

end Wdl
