import Mathlib.Data.List.Perm.Subperm
import Wdl.Proofs.Fragments
import Wdl.Proofs.Outcomes
import Wdl.Proofs.Tokens
import Wdl.Proofs.TypeSteps

/-!
# Wdl.Proofs.Placement -- every node is in its place

A node is in its place if its range goes forwards, the ranges of its children lie in it, and no two
of them overlap. Nodes that are laid out in a stretch of the text, in whatever order, are in their
places with all that is below them. The nodes of an expression are, because the runs that write them
go forwards in the text.
-/

namespace Wdl

/-! ## All nodes below a node -/

/-- A property of a node and of all nodes below it. -/
inductive Node.Everywhere (P : Node → Prop) : Node → Prop
  | intro {n : Node} : P n → (∀ m ∈ n.children, m.Everywhere P) → Node.Everywhere P n

namespace Node.Everywhere

variable {P Q : Node → Prop} {n : Node}

theorem here (h : n.Everywhere P) : P n := by
  cases h
  assumption

theorem child (h : n.Everywhere P) {m : Node} (hm : m ∈ n.children) : m.Everywhere P := by
  cases h with
  | intro _ each => exact each m hm

theorem imp (h : n.Everywhere P) (f : ∀ m, P m → Q m) : n.Everywhere Q := by
  induction h with
  | intro here _ ih => exact .intro (f _ here) ih

/-- A property holds everywhere below a node if it holds at the end of every path. -/
theorem descendant (h : n.Everywhere P) {path : List Nat} {m : Node}
    (hm : Node.descendant? path n = some m) : m.Everywhere P := by
  induction path generalizing n with
  | nil =>
    cases hm
    exact h
  | cons i path ih =>
    rw [Node.descendant?] at hm
    obtain ⟨k, hk, hm⟩ := Option.bind_eq_some_iff.1 hm
    exact ih (h.child (List.mem_of_getElem? hk)) hm

end Node.Everywhere

/-! ## Places -/

/-- Ranges that share no character. -/
def Range.Apart (a b : Range) : Prop := a.stop ≤ b.start ∨ b.stop ≤ a.start

theorem Range.Apart.symm {a b : Range} (h : a.Apart b) : b.Apart a := Or.symm h

/-- The node goes forwards, and its children lie in it, apart from each other. -/
structure Node.Placed (n : Node) : Prop where
  ordered : n.range.start ≤ n.range.stop
  within : ∀ m ∈ n.children, m.range.Within n.range
  apart : n.children.Pairwise fun a b => a.range.Apart b.range

/-- A node in its place everywhere holds all that is below it. -/
theorem Node.Everywhere.within {n m : Node} (h : n.Everywhere Node.Placed) {path : List Nat}
    (hm : Node.descendant? path n = some m) : m.range.Within n.range := by
  induction path generalizing n with
  | nil =>
    cases hm
    exact .refl _
  | cons i path ih =>
    rw [Node.descendant?] at hm
    obtain ⟨k, hk, hm⟩ := Option.bind_eq_some_iff.1 hm
    have mem := List.mem_of_getElem? hk
    exact (ih (h.child mem) hm).trans (h.here.within k mem)

namespace Parser

/-- The state is where an expression is looked for, perhaps besides other things. -/
def State.Started (fe : FrontEnd) (cs : List Char) (s : State) : Prop :=
  ∃ A ∈ openings, ∃ c : Cursor, c.On cs ∧ fe.next A c = .ok (s.ahead, s.cursor)

variable {fe : FrontEnd} {cs : List Char} {rules : Rules} {s s' : State}

/-- Behind steps that an expression may stand behind, an expression is looked for. -/
theorem Run.started {gap : List Step} {first : Bool} (sound : s.Sound fe cs)
    (run : Run fe.next s gap s') (opens : Opens first gap)
    (started : first = true → s.Started fe cs) : s'.Started fe cs := by
  unfold Opens at opens
  split at opens
  · rename_i empty
    rw [List.getLast?_eq_none_iff] at empty
    subst empty
    cases run_nil.1 run
    exact started opens
  · rename_i x last
    obtain ⟨xs, rfl⟩ := List.getLast?_eq_some_iff.1 last
    obtain ⟨t, front, step⟩ := run_append.1 run
    have on := (Run.sound sound front).1.cursor
    cases step with
    | cons taken next rest =>
      cases run_nil.1 rest
      exact ⟨x.after, opens, t.cursor, on, next⟩

theorem Written.range_eq {n : Node} {xs : List Step} (h : Written rules n xs) :
    n.range = spanOf xs ∧ xs ≠ [] := by
  cases h with
  | expr script built =>
    exact ⟨(Build.expr_range rules _ built).trans script.range_eq, script.ne_nil⟩
  | placeholder range ne => exact ⟨range, ne⟩

end Parser

namespace Parser

/-- Where an expression of a text comes from: the tokens of a script, from a place where an
expression is looked for; or a name that stands for itself among the inputs of a call. -/
inductive Origin (fe : FrontEnd) (rules : Rules) (cs : List Char) : Expr → Prop
  | script {level : Level} {place : Place} {σ : Surface.Expr} {e : Expr} {xs : List Step}
      {s s' : State} : s.Sound fe cs → s.Started fe cs → Run fe.next s xs s' →
      Script level place σ xs → Build.expr rules σ = .ok e → Origin fe rules cs e
  | shorthand {t : Token} {A : Expect} {c c' : Cursor} : c.On cs →
      fe.next A c = .ok (some t, c') → t.kind = .name →
      Build.checkName rules (word t) = .ok () → Origin fe rules cs (.ident t.range t.text)

/-- Where a type of a text comes from: the tokens that write it, or those of an optional type of
which it is the inner one. -/
inductive TypeOrigin (fe : FrontEnd) (cs : List Char) : Ty → Prop
  | whole {t : Surface.TypeExpr} {T : Ty} {xs : List Step} {s s' : State} : s.Sound fe cs →
      Run fe.next s xs s' → TypeSteps t xs → Build.type t = .ok T → TypeOrigin fe cs T
  | inner {t : Surface.TypeExpr} {r : Range} {T : Ty} {xs : List Step} {s s' : State} :
      s.Sound fe cs → Run fe.next s xs s' → TypeSteps t xs →
      Build.type t = .ok (.optional r T) → TypeOrigin fe cs T

/-- The delimiter in front of a command. -/
def commandOpen : CommandStyle → Symbol
  | .braces => .braceOpen
  | .heredoc => .heredocOpen

/-- The delimiter behind a command. -/
def commandClose : CommandStyle → Symbol
  | .braces => .braceClose
  | .heredoc => .heredocClose

/-- What opens a placeholder in a command. -/
def commandHole : CommandStyle → Terminal
  | .braces => .opening
  | .heredoc => .symbol .tildeBrace

/-- The template of a command. -/
def Template.command (style : CommandStyle) : Template :=
  ⟨.commandText style, commandHole style, Expect.afterCommandText style, Expect.inCommand style⟩

/-- The tokens of a command. -/
structure CommandPiece where
  style : CommandStyle
  start : Token
  opening : Token
  parts : List PartPiece
  close : Token

namespace CommandPiece

/-- The command that is written. -/
def command (p : CommandPiece) : Surface.Command :=
  ⟨⟨p.start.start, p.close.stop⟩, p.style, p.parts.map PartPiece.part⟩

/-- The steps of a command. -/
def steps (p : CommandPiece) : List Step :=
  ⟨p.start, Expect.commandOpen⟩ :: ⟨p.opening, Expect.inCommand p.style⟩ ::
    (p.parts.flatMap (PartPiece.steps (.command p.style)) ++ [⟨p.close, Expect.afterCommand⟩])

/-- The tokens of a command are those of its style. -/
structure Fits (p : CommandPiece) : Prop where
  start : p.start.kind = .keyword .kwCommand
  opening : p.opening.kind = .symbol (commandOpen p.style)
  parts : ∀ q ∈ p.parts, q.Fits (.command p.style)
  close : p.close.kind = .symbol (commandClose p.style)

end CommandPiece

/-- Where a command of a text comes from: the tokens that write it. -/
inductive CommandOrigin (fe : FrontEnd) (rules : Rules) (cs : List Char) : Command → Prop
  | whole {p : CommandPiece} {C : Command} {s s' : State} : s.Sound fe cs →
      Run fe.next s p.steps s' → p.Fits → (Build.command rules p.command).Gives C →
      CommandOrigin fe rules cs C

/-- The tokens of a node are those of the text, where they are kept track of. -/
def Arises (fe : FrontEnd) (rules : Rules) (cs : List Char) : Node → Prop
  | .expr e => Origin fe rules cs e
  | .type T => TypeOrigin fe cs T
  | .command C => CommandOrigin fe rules cs C
  | _ => True

/-- A node in its place, with the tokens that write it. -/
structure Sited (fe : FrontEnd) (rules : Rules) (cs : List Char) (n : Node) : Prop where
  placed : n.Placed
  origin : Arises fe rules cs n

/-- Nodes laid out between two positions of a text, all that is below them included. -/
structure Laid (fe : FrontEnd) (rules : Rules) (cs : List Char) (a b : Nat) (ns : List Node) :
    Prop where
  each : ∀ n ∈ ns, n.Everywhere (Sited fe rules cs)
  within : ∀ n ∈ ns, n.range.Within ⟨a, b⟩
  apart : ns.Pairwise fun m n => m.range.Apart n.range

variable {fe : FrontEnd} {cs : List Char} {rules : Rules} {s s' : State}

/-! ## Layouts -/

namespace Laid

variable {a b c d : Nat} {ns ms : List Node}

theorem nil : Laid fe rules cs a b [] := ⟨by simp, by simp, .nil⟩

theorem single {n : Node} (h : n.Everywhere (Sited fe rules cs)) (within : n.range.Within ⟨a, b⟩) :
    Laid fe rules cs a b [n] := by
  refine ⟨?_, ?_, List.pairwise_singleton _ _⟩
  · rintro m hm
    rwa [List.mem_singleton.1 hm]
  · rintro m hm
    rwa [List.mem_singleton.1 hm]

/-- What is laid out in a stretch is laid out in a longer one. -/
theorem widen (h : Laid fe rules cs b c ns) (ab : a ≤ b) (cd : c ≤ d) :
    Laid fe rules cs a d ns := by
  refine ⟨h.each, ?_, h.apart⟩
  intro n hn
  exact (h.within n hn).trans ⟨ab, cd⟩

/-- Stretches behind each other hold what both hold. -/
theorem append (hn : Laid fe rules cs a b ns) (hm : Laid fe rules cs c d ms) (ac : a ≤ c)
    (bc : b ≤ c) (bd : b ≤ d) : Laid fe rules cs a d (ns ++ ms) := by
  refine ⟨?_, ?_, ?_⟩
  · intro n h
    rcases List.mem_append.1 h with h | h
    · exact hn.each n h
    · exact hm.each n h
  · intro n h
    rcases List.mem_append.1 h with h | h
    · exact (hn.within n h).trans ⟨Nat.le_refl _, bd⟩
    · exact (hm.within n h).trans ⟨ac, Nat.le_refl _⟩
  · refine List.pairwise_append.2 ⟨hn.apart, hm.apart, ?_⟩
    intro n h m h'
    have left := (hn.within n h).2
    have right := (hm.within m h').1
    simp only at left right
    exact .inl (by omega)

/-- The order in which nodes are listed does not matter, and some may be left out. -/
theorem subperm (h : Laid fe rules cs a b ns) (sub : ms.Subperm ns) : Laid fe rules cs a b ms := by
  obtain ⟨ls, perm, sublist⟩ := sub
  have symm : ∀ {m n : Node}, m.range.Apart n.range → n.range.Apart m.range := Range.Apart.symm
  refine ⟨?_, ?_, ?_⟩
  · intro n hn
    exact h.each n (sublist.subset (perm.symm.subset hn))
  · intro n hn
    exact h.within n (sublist.subset (perm.symm.subset hn))
  · exact (perm.pairwise_iff symm).1 (h.apart.sublist sublist)

/-- A node whose children are laid out in it is in its place. -/
theorem wrap {n : Node} (h : Laid fe rules cs a b n.children) (range : n.range = ⟨a, b⟩)
    (ordered : a ≤ b) (origin : Arises fe rules cs n) :
    n.Everywhere (Sited fe rules cs) := by
  refine .intro ⟨⟨?_, ?_, h.apart⟩, origin⟩ h.each
  · rw [range]
    exact ordered
  · rw [range]
    exact h.within

end Laid

/-! ## Runs -/

mutual

/-- The nodes below a written one are in their places. -/
theorem Written.sited {s s' : State} (sound : s.Sound fe cs) (started : s.Started fe cs) :
    {n : Node} → {xs : List Step} → Written rules n xs → Run fe.next s xs s' →
      n.Everywhere (Sited fe rules cs)
  | _, _, .expr script built spread, run => by
    have laid := Spread.laid sound (fun _ => started) spread run
    have range := (Build.expr_range rules _ built).trans script.range_eq
    rw [Run.spanOf_eq sound run script.ne_nil] at range
    refine laid.wrap range (Nat.le_of_lt (Run.front_lt_back sound run script.ne_nil)) ?_
    exact Origin.script sound started run script built
  | _, _, .placeholder range ne spread, run => by
    have laid := Spread.laid sound (fun _ => started) spread run
    rw [Run.spanOf_eq sound run ne] at range
    exact laid.wrap range (Nat.le_of_lt (Run.front_lt_back sound run ne)) trivial

/-- Nodes that are written one behind the other are laid out along the run. -/
theorem Spread.laid {s s' : State} (sound : s.Sound fe cs) :
    {first : Bool} → (first = true → s.Started fe cs) → {ns : List Node} → {xs : List Step} →
      Spread rules first ns xs → Run fe.next s xs s' →
      Laid fe rules cs s.front s'.back ns
  | _, _, _, _, .nil _, _ => Laid.nil
  | _, started, _, _, .cons opens written spread, run => by
    obtain ⟨t, gap, run⟩ := run_append.1 run
    obtain ⟨u, node, rest⟩ := run_append.1 run
    obtain ⟨soundt, st⟩ := Run.sound sound gap
    obtain ⟨soundu, tu⟩ := Run.sound soundt node
    obtain ⟨-, us⟩ := Run.sound soundu rest
    have sited := Written.sited soundt (Run.started sound gap opens started) written node
    have never : false = true → u.Started fe cs := by rintro ⟨⟩
    have behind := Spread.laid soundu never spread rest
    obtain ⟨range, ne⟩ := written.range_eq
    rw [Run.spanOf_eq soundt node ne] at range
    have ordered := soundu.ordered
    have alone := Laid.single (a := t.front) (b := u.back) sited (by rw [range]; exact .refl _)
    exact (alone.append behind tu.front ordered us.back).widen st.front (Nat.le_refl _)

end

end Parser

end Wdl
