import Mathlib.Data.List.Forall2
import Wdl.Build.Document
import Wdl.Parser.Basic

/-!
# Wdl.Proofs.Outcomes -- what a successful computation did

Checks, builders and parsers are sequences of steps. Each lemma here says of one way to put steps
together which steps a success is made of, so that later proofs take a computation apart without
looking into its monad.

* `Build.bind_eq_ok`, `Build.pure_eq_ok` and their like are for `Checked`, `Parser.bind_eq_ok` and
  `Parser.pure_eq_ok` for `Parser`. They are equivalences and tagged `simp`: a proof turns a
  hypothesis about a computation into hypotheses about its steps with one rewriting.
* `Builder.Gives b x` is success of a builder whatever it warned of; `Builder.gives_bind` and
  `Builder.gives_each` only lead from the whole to its parts.
* `Build.mapM_eq_ok`, `Build.exprs_eq_ok`, `Build.pairs_eq_ok` and `Build.operands_eq_ok` relate a
  list to what is built from it, item by item, with `List.Forall₂`.
-/

namespace Wdl

variable {α β : Type}

/-- A result that is kept as an option is the result of a success. -/
theorem toOption_eq_some {ε : Type} {r : Except ε α} {x : α} :
    r.toOption = some x ↔ r = .ok x := by
  cases r <;> simp [Except.toOption]

/-- Checks of a list succeed if every check does. -/
theorem forM_eq_ok {ε : Type} {f : α → Except ε Unit} {xs : List α} :
    xs.forM f = .ok () ↔ ∀ x ∈ xs, f x = .ok () := by
  induction xs with
  | nil => exact ⟨by simp, fun _ => rfl⟩
  | cons x xs ih =>
    show (f x >>= fun _ => xs.forM f) = .ok () ↔ _
    rw [List.forall_mem_cons, ← ih]
    cases f x with
    | error e => simp [bind, Except.bind]
    | ok _ => simp [bind, Except.bind]

/-! ## Checks -/

namespace Build

@[simp] theorem bind_eq_ok {x : Checked α} {f : α → Checked β} {b : β} :
    x >>= f = .ok b ↔ ∃ a, x = .ok a ∧ f a = .ok b := by
  cases x with
  | error v => simp [bind, Except.bind]
  | ok a => simp [bind, Except.bind]

@[simp] theorem pure_eq_ok {a b : α} : (pure a : Checked α) = .ok b ↔ a = b := by
  simp [pure, Except.pure]

@[simp] theorem map_eq_ok {x : Checked α} {f : α → β} {b : β} :
    f <$> x = .ok b ↔ ∃ a, x = .ok a ∧ f a = b := by
  cases x with
  | error v => simp [Functor.map, Except.map]
  | ok a => simp [Functor.map, Except.map]

@[simp] theorem violate_ne_ok {v : Violation} {r : Range} {a : α} :
    (violate v r : Checked α) = .ok a ↔ False := by
  simp [violate]

/-- Checks of all items of a list succeed one by one. -/
theorem mapM_eq_ok {f : α → Checked β} {xs : List α} {ys : List β} :
    xs.mapM f = .ok ys ↔ List.Forall₂ (fun x y => f x = .ok y) xs ys := by
  induction xs generalizing ys with
  | nil => cases ys <;> simp
  | cons x xs ih =>
    rw [List.mapM_cons]
    cases ys with
    | nil => simp
    | cons y ys => simp [ih]

/-- The expressions of a list are built one by one. -/
theorem exprs_eq_ok {rules : Rules} {σs : List Surface.Expr} {es : List Expr} :
    exprs rules σs = .ok es ↔ List.Forall₂ (fun σ e => expr rules σ = .ok e) σs es := by
  induction σs generalizing es with
  | nil => cases es <;> simp [exprs]
  | cons σ σs ih => cases es <;> simp [exprs, ih]

/-- The keys and values of a map are built one by one, each key before its value. -/
theorem pairs_eq_ok {rules : Rules} {σs : List (Surface.Expr × Surface.Expr)}
    {es : List (Expr × Expr)} :
    pairs rules σs = .ok es ↔
      List.Forall₂ (fun σ e => expr rules σ.1 = .ok e.1 ∧ expr rules σ.2 = .ok e.2) σs es := by
  induction σs generalizing es with
  | nil => cases es <;> simp [pairs]
  | cons σ σs ih =>
    obtain ⟨key, value⟩ := σ
    cases es with
    | nil => simp [pairs]
    | cons e es =>
      obtain ⟨k, v⟩ := e
      simp [pairs, ih, and_assoc]

/-- The values of members are built one by one. -/
theorem members_eq_ok {rules : Rules} {ms : List (Surface.Key × Surface.Expr)}
    {es : List (Text × Expr)} (h : members rules ms = .ok es) :
    List.Forall₂ (fun m e => expr rules m.2 = .ok e.2) ms es := by
  induction ms generalizing es with
  | nil => cases h; exact .nil
  | cons m ms ih =>
    obtain ⟨key, value⟩ := m
    cases key with
    | word w =>
      obtain ⟨e, he, -, rest, hrest, rfl⟩ := by simpa [members] using h
      exact .cons he (ih hrest)
    | quoted q =>
      obtain ⟨k, -, e, he, rest, hrest, rfl⟩ := by simpa [members] using h
      exact .cons he (ih hrest)

/-- The operands behind the first of a chain are built one by one, each placed where it is
written. -/
theorem operands_eq_ok {rules : Rules} {links : List (BinaryOp × Surface.Expr)}
    {placed : List (BinaryOp × Placed)} :
    operands rules links = .ok placed ↔
      List.Forall₂ (fun link x => x.1 = link.1 ∧ x.2.1 = link.2.range ∧
        expr rules link.2 = .ok x.2.2) links placed := by
  induction links generalizing placed with
  | nil => cases placed <;> simp [operands]
  | cons link links ih =>
    obtain ⟨op, σ⟩ := link
    cases placed with
    | nil => simp [operands]
    | cons x placed =>
      obtain ⟨op', r, e⟩ := x
      simp only [operands, bind_eq_ok, pure_eq_ok, List.forall₂_cons, ih]
      constructor
      · rintro ⟨e, he, rest, hrest, eq⟩
        cases eq
        exact ⟨⟨rfl, rfl, he⟩, hrest⟩
      · rintro ⟨⟨rfl, rfl, he⟩, hrest⟩
        exact ⟨e, he, placed, hrest, rfl⟩

/-- Accessors are built in the order in which they are written, so a list of them may be cut
anywhere. -/
theorem accesses_append {rules : Rules} {as bs : List Surface.Accessor} {xs : List Access} :
    accesses rules (as ++ bs) = .ok xs ↔
      ∃ ys zs, accesses rules as = .ok ys ∧ accesses rules bs = .ok zs ∧ xs = ys ++ zs := by
  induction as generalizing xs with
  | nil => simp [accesses]
  | cons a as ih =>
    cases a <;>
      simp only [List.cons_append, accesses, bind_eq_ok, pure_eq_ok, ih]
    · constructor
      · rintro ⟨i, hi, _, ⟨ys, zs, hys, hzs, rfl⟩, rfl⟩
        exact ⟨_, zs, ⟨i, hi, ys, hys, rfl⟩, hzs, rfl⟩
      · rintro ⟨_, zs, ⟨i, hi, ys, hys, rfl⟩, hzs, rfl⟩
        exact ⟨i, hi, _, ⟨ys, zs, hys, hzs, rfl⟩, rfl⟩
    · constructor
      · rintro ⟨u, hu, _, ⟨ys, zs, hys, hzs, rfl⟩, rfl⟩
        exact ⟨_, zs, ⟨u, hu, ys, hys, rfl⟩, hzs, rfl⟩
      · rintro ⟨_, zs, ⟨u, hu, ys, hys, rfl⟩, hzs, rfl⟩
        exact ⟨u, hu, _, ⟨ys, zs, hys, hzs, rfl⟩, rfl⟩

end Build

/-- What holds of related items of two lists follows from what holds of the items of the first. -/
theorem forall₂_of_mem {R S : α → β → Prop} {xs : List α} {ys : List β}
    (h : List.Forall₂ R xs ys) (imp : ∀ x ∈ xs, ∀ y, R x y → S x y) : List.Forall₂ S xs ys := by
  induction h with
  | nil => exact .nil
  | cons first _ ih =>
    exact .cons (imp _ (by simp) _ first) (ih fun x hx => imp x (by simp [hx]))

/-- What follows for each item of the second list from the item of the first it is related to. -/
theorem forall_of_forall₂ {R : α → β → Prop} {P : β → Prop} {xs : List α} {ys : List β}
    (h : List.Forall₂ R xs ys) (each : ∀ x ∈ xs, ∀ y, R x y → P y) : ∀ y ∈ ys, P y := by
  induction h with
  | nil => simp
  | cons first _ ih =>
    exact List.forall_mem_cons.2 ⟨each _ (by simp) _ first, ih fun x hx => each x (by simp [hx])⟩

/-- Each item of the first list is related to one of the second. -/
theorem exists_of_forall₂ {R : α → β → Prop} {xs : List α} {ys : List β}
    (h : List.Forall₂ R xs ys) : ∀ x ∈ xs, ∃ y, R x y :=
  forall_of_forall₂ h.flip fun y _ _ related => ⟨y, related⟩

/-! ## Builders -/

/-- A builder succeeds with a value; what it warned of does not matter. -/
def Builder.Gives (b : Builder α) (x : α) : Prop :=
  ∃ before after, StateT.run (ExceptT.run b) before = (.ok x, after)

namespace Builder

/-- A sequence of two builders gives what the second gives for something that the first gives. -/
theorem gives_bind {b : Builder α} {f : α → Builder β} {y : β} (h : (b >>= f).Gives y) :
    ∃ x, b.Gives x ∧ (f x).Gives y := by
  obtain ⟨before, after, h⟩ := h
  simp only [ExceptT.run_bind, StateT.run_bind] at h
  cases run : StateT.run (ExceptT.run b) before with
  | mk result between =>
    rw [run] at h
    cases result with
    | error v => cases h
    | ok x => exact ⟨x, ⟨before, between, run⟩, ⟨between, after, h⟩⟩

theorem gives_pure {x y : α} (h : (pure x : Builder α).Gives y) : x = y := by
  obtain ⟨before, after, h⟩ := h
  cases h
  rfl

/-- A check as a builder gives what it returns. -/
theorem gives_check {c : Checked α} {x : α} (h : (Build.check c).Gives x) : c = .ok x := by
  obtain ⟨before, after, h⟩ := h
  cases h
  rfl

/-- What is built from items in order is built one by one. -/
theorem gives_each {f : α → Builder β} {xs : List α} {ys : List β}
    (h : (Build.each f xs).Gives ys) : List.Forall₂ (fun x y => (f x).Gives y) xs ys := by
  induction xs generalizing ys with
  | nil =>
    cases gives_pure h
    exact .nil
  | cons x xs ih =>
    obtain ⟨y, hy, h⟩ := gives_bind h
    obtain ⟨rest, hrest, h⟩ := gives_bind h
    cases gives_pure h
    exact .cons hy (ih hrest)

end Builder

/-! ## Parsers -/

namespace Parser

@[simp] theorem bind_eq_ok {p : Parser α} {f : α → Parser β} {s s' : State} {b : β} :
    (p >>= f) s = .ok (b, s') ↔ ∃ a t, p s = .ok (a, t) ∧ f a t = .ok (b, s') := by
  show (p s >>= fun x => f x.1 x.2) = _ ↔ _
  cases p s with
  | error r => simp [bind, Except.bind]
  | ok x => obtain ⟨a, t⟩ := x; simp [bind, Except.bind]

@[simp] theorem pure_eq_ok {a b : α} {s s' : State} :
    (pure a : Parser α) s = .ok (b, s') ↔ a = b ∧ s = s' := by
  show (Except.ok (a, s) : Except Rejection (α × State)) = _ ↔ _
  simp

end Parser

end Wdl
