import Mathlib.Data.List.Infix
import Mathlib.Logic.Relation
import Wdl.Proofs.Fields
import Wdl.Proofs.Walks

/-!
# Wdl.Proofs.Pruning -- what a walker with silent methods dispatches

The methods of a walker that does not descend by itself pass a node on to its children, except for
those that are silent. So a node is dispatched just if no node above it went to a silent method. A
walker that descends by itself pays no attention to silent methods and dispatches all nodes.

* Nodes are told apart by the paths that lead to them. As lists of positions these are in
  lexicographic order, which for paths from one root is the order of a preorder walk: a node is
  before all nodes below it, and what is below one child before what is below the next. `Visits
  number follow P events` says that the events are those of the nodes at the paths of which `P`
  holds, in that order and one for each.
* `Visits.below` and `Visits.node` go from the children of a node to the node. They are the step of
  both inductions.
* `Exposed silent n p` is the condition on paths under silent methods; `exposed_cons` is its
  recursion.

`Walker.walk_visits` puts together the two kinds of walks, and relates children to fields
(`Node.fieldNodes`).
-/

namespace Wdl

namespace Walker

/-! ## Dispatched nodes -/

/-- The events are those of the nodes at certain paths, one for each, in the order of the paths. -/
def Visits (number : Nat) (follow : List Nat → Option Node) (P : List Nat → Prop)
    (events : List Event) : Prop :=
  ∃ paths : List (List Nat), paths.Pairwise (· < ·) ∧ (∀ p, p ∈ paths ↔ P p) ∧
    List.Forall₂ (fun p e => follow p = some e.node ∧ e.walker = number) paths events

/-- A path leads to a node, and no node before its end goes to a silent method. -/
structure Exposed (silent : List Method) (n : Node) (p : List Nat) : Prop where
  leads : (n.descendant? p).isSome
  passed : ∀ (q : List Nat) (a : Node), q <+: p → q ≠ p → n.descendant? q = some a →
    a.method ∉ silent

/-- One node is held in a field of another. -/
def Held (n c : Node) : Prop := c ∈ n.fieldNodes

section

variable {number : Nat} {silent : List Method}

/-- Which paths are visited is all that matters of the condition. -/
theorem Visits.congr {follow : List Nat → Option Node} {P Q : List Nat → Prop}
    {events : List Event} (h : Visits number follow P events) (same : ∀ p, P p ↔ Q p) :
    Visits number follow Q events := by
  obtain ⟨paths, sorted, exact, shown⟩ := h
  exact ⟨paths, sorted, fun p => (exact p).trans (same p), shown⟩

/-- Each dispatched node is at one of the paths. -/
theorem Visits.mem {follow : List Nat → Option Node} {P : List Nat → Prop} {events : List Event}
    (h : Visits number follow P events) (n : Node) :
    (⟨number, n⟩ : Event) ∈ events ↔ ∃ p, P p ∧ follow p = some n := by
  obtain ⟨paths, -, exact, shown⟩ := h
  simp only [← exact]
  clear exact
  induction shown with
  | nil => simp
  | @cons p e ps es here _ ih =>
    obtain ⟨node, walker⟩ := here
    simp only [List.mem_cons, ih]
    constructor
    · rintro (rfl | ⟨q, mem, eq⟩)
      · exact ⟨p, .inl rfl, node⟩
      · exact ⟨q, .inr mem, eq⟩
    · rintro ⟨q, rfl | mem, eq⟩
      · obtain ⟨w, m⟩ := e
        cases walker
        cases node.symm.trans eq
        exact .inl rfl
      · exact .inr ⟨q, mem, eq⟩

/-! ## From the children to the node

The children are taken from the front, so that the paths into one more child are all behind those
into the others. -/

/-- Follows a path whose first step is into a list of nodes. -/
def into (cs : List Node) : List Nat → Option Node
  | [] => none
  | i :: p => cs[i]?.bind (Node.descendant? p)

/-- A path into some nodes leads to the same node with more nodes behind them. -/
theorem into_append {cs ds : List Node} {p : List Nat} {n : Node} (h : into cs p = some n) :
    into (cs ++ ds) p = some n := by
  cases p with
  | nil => cases h
  | cons i p =>
    obtain ⟨c, hc, hp⟩ := Option.bind_eq_some_iff.1 h
    have hi : i < cs.length := (List.getElem?_eq_some_iff.1 hc).1
    show (cs ++ ds)[i]?.bind (Node.descendant? p) = some n
    rw [List.getElem?_append_left hi, hc, Option.bind_some, hp]

/-- The paths into a list of nodes, one node after the other. -/
theorem Visits.below {P : List Nat → Prop} {events : Node → List Event} (cs : List Node)
    (each : ∀ i c, cs[i]? = some c →
      Visits number (Node.descendant? · c) (fun p => P (i :: p)) (events c)) :
    Visits number (into cs) (fun p => ∃ i q, p = i :: q ∧ i < cs.length ∧ P p)
      (cs.flatMap events) := by
  induction cs using List.reverseRecOn with
  | nil => exact ⟨[], .nil, by simp, .nil⟩
  | append_singleton cs c ih =>
    obtain ⟨front, sorted, exact, shown⟩ := ih fun i d hd =>
      each i d (by rw [List.getElem?_append_left (List.getElem?_eq_some_iff.1 hd).1, hd])
    obtain ⟨last, sorted', exact', shown'⟩ := each cs.length c (by simp)
    refine ⟨front ++ last.map (cs.length :: ·), ?_, ?_, ?_⟩
    · refine List.pairwise_append.2 ⟨sorted, List.pairwise_map.2 (sorted'.imp ?_), ?_⟩
      · intro p q lt
        exact List.cons_lt_cons_iff.2 (.inr ⟨rfl, lt⟩)
      · intro p hp q hq
        obtain ⟨i, p', rfl, lt, -⟩ := (exact p).1 hp
        obtain ⟨q', -, rfl⟩ := List.mem_map.1 hq
        exact List.cons_lt_cons_iff.2 (.inl lt)
    -- a path into the list is one into the front or into the last node
    · intro p
      simp only [List.mem_append, exact, List.mem_map, exact', List.length_append,
        List.length_singleton]
      constructor
      · rintro (⟨i, q, rfl, lt, h⟩ | ⟨q, h, rfl⟩)
        · exact ⟨i, q, rfl, Nat.lt_succ_of_lt lt, h⟩
        · exact ⟨_, q, rfl, Nat.lt_succ_self _, h⟩
      · rintro ⟨i, q, rfl, lt, h⟩
        rcases Nat.lt_succ_iff_lt_or_eq.1 lt with lt | rfl
        · exact .inl ⟨i, q, rfl, lt, h⟩
        · exact .inr ⟨q, h, rfl⟩
    · rw [List.flatMap_append, List.flatMap_singleton]
      refine List.rel_append ?_ (List.forall₂_map_left_iff.2 ?_)
      · exact shown.imp fun p e here => ⟨into_append here.1, here.2⟩
      · refine shown'.imp fun q e here => ⟨?_, here.2⟩
        show (cs ++ [c])[cs.length]?.bind (Node.descendant? q) = _
        rw [List.getElem?_concat_length, Option.bind_some]
        exact here.1

/-- A node comes first, then what is visited below it. -/
theorem Visits.node {n : Node} {P : List Nat → Prop} {events : List Event}
    (h : Visits number (into n.children) P events) (below : ¬ P []) :
    Visits number (Node.descendant? · n) (fun p => p = [] ∨ P p) (⟨number, n⟩ :: events) := by
  obtain ⟨paths, sorted, exact, shown⟩ := h
  have steps : ∀ p ∈ paths, ∃ i q, p = i :: q := by
    intro p hp
    cases p with
    | nil => exact absurd ((exact []).1 hp) below
    | cons i q => exact ⟨i, q, rfl⟩
  refine ⟨[] :: paths, List.pairwise_cons.2 ⟨?_, sorted⟩, ?_, .cons ⟨rfl, rfl⟩ ?_⟩
  · intro p hp
    obtain ⟨i, q, rfl⟩ := steps p hp
    exact List.nil_lt_cons i q
  · intro p
    rw [List.mem_cons, exact]
  · refine shown.imp ?_
    rintro (_ | ⟨i, q⟩) e ⟨leads, at_⟩
    · cases leads
    · exact ⟨leads, at_⟩

/-! ## Exposed nodes -/

/-- Nothing is above the root. -/
theorem Exposed.root (n : Node) : Exposed silent n [] where
  leads := rfl
  passed _ _ before ne _ := absurd (List.prefix_nil.1 before) ne

/-- A node below another is exposed if the upper one goes to a method that is not silent, and the
lower one is exposed below the child on the way. -/
theorem exposed_cons {n : Node} {i : Nat} {p : List Nat} :
    Exposed silent n (i :: p) ↔
      n.method ∉ silent ∧ ∃ c, n.children[i]? = some c ∧ Exposed silent c p := by
  constructor
  · intro h
    obtain ⟨m, hm⟩ := Option.isSome_iff_exists.1 h.leads
    obtain ⟨c, hc, hp⟩ := Option.bind_eq_some_iff.1 hm
    have top : n.method ∉ silent := h.passed [] n List.nil_prefix (List.cons_ne_nil i p).symm rfl
    refine ⟨top, c, hc, Option.isSome_of_eq_some hp, ?_⟩
    intro q a before ne ha
    refine h.passed (i :: q) a (List.cons_prefix_cons.2 ⟨rfl, before⟩)
      (fun eq => ne (List.cons.inj eq).2) ?_
    show n.children[i]?.bind (Node.descendant? q) = some a
    rw [hc, Option.bind_some, ha]
  · rintro ⟨top, c, hc, h⟩
    refine ⟨?_, ?_⟩
    · show (n.children[i]?.bind (Node.descendant? p)).isSome
      rw [hc]
      exact h.leads
    · intro q a before ne ha
      rcases List.prefix_cons_iff.1 before with rfl | ⟨q, rfl, rest⟩
      · cases ha
        exact top
      · have step : (n.children[i]?.bind (Node.descendant? q)) = some a := ha
        rw [hc] at step
        exact h.passed q a rest (fun eq => ne (congrArg (i :: ·) eq)) step

/-- Without silent methods every node is exposed. -/
theorem exposed_none {n : Node} {p : List Nat} : Exposed [] n p ↔ (n.descendant? p).isSome :=
  ⟨Exposed.leads, fun leads => ⟨leads, fun _ _ _ _ _ => List.not_mem_nil⟩⟩

/-! ## Walks -/

/-- A method of a walker that does not descend by itself passes a node on unless it is silent. -/
theorem walk_passing (n : Node) :
    walk (.single number false silent) none n =
      ⟨number, n⟩ :: (if silent.contains n.method then [] else
        n.children.flatMap (walk (.single number false silent) none)) := by
  rw [walk, List.flatMap_subtype (fun _ _ => rfl), List.unattach_attach]
  simp

/-- Without silent methods it makes no difference who descends. -/
theorem walk_loud (n : Node) :
    walk (.single number false []) none n = walk (.single number true silent) none n := by
  induction n using Node.induction with
  | step n ih =>
    rw [walk_passing, walk_single]
    exact congrArg _ (List.flatMap_congr ih)

/-- A walker that does not descend by itself visits the exposed nodes. -/
theorem visits_exposed (n : Node) :
    Visits number (Node.descendant? · n) (Exposed silent n)
      (walk (.single number false silent) none n) := by
  induction n using Node.induction with
  | step n ih =>
    rw [walk_passing]
    by_cases quiet : n.method ∈ silent
    · -- nothing below the node is visited or exposed
      rw [if_pos (List.contains_iff_mem.2 quiet)]
      have alone : Visits number (into n.children) (fun _ => False) [] :=
        ⟨[], .nil, fun p => ⟨List.not_mem_nil, False.elim⟩, .nil⟩
      refine (alone.node id).congr fun p => ?_
      cases p with
      | nil => exact ⟨fun _ => .root n, fun _ => .inl rfl⟩
      | cons i p =>
        refine ⟨?_, fun h => absurd quiet (exposed_cons.1 h).1⟩
        rintro (eq | no)
        · cases eq
        · exact no.elim
    · rw [if_neg (mt List.contains_iff_mem.1 quiet)]
      have each : ∀ i c, n.children[i]? = some c →
          Visits number (Node.descendant? · c) (fun p => Exposed silent n (i :: p))
            (walk (.single number false silent) none c) := by
        intro i c hc
        refine (ih c (List.mem_of_getElem? hc)).congr fun p => ?_
        rw [exposed_cons]
        constructor
        · exact fun h => ⟨quiet, c, hc, h⟩
        · rintro ⟨-, d, hd, h⟩
          cases hc.symm.trans hd
          exact h
      refine ((Visits.below n.children each).node ?_).congr fun p => ?_
      · rintro ⟨i, q, eq, -⟩
        cases eq
      · cases p with
        | nil => exact ⟨fun _ => .root n, fun _ => .inl rfl⟩
        | cons i p =>
          constructor
          · rintro (eq | ⟨j, q, -, -, h⟩)
            · cases eq
            · exact h
          · intro h
            obtain ⟨-, c, hc, -⟩ := exposed_cons.1 h
            exact .inr ⟨i, p, rfl, (List.getElem?_eq_some_iff.1 hc).1, h⟩

/-- A walker that descends by itself visits all nodes. -/
theorem visits_all (n : Node) :
    Visits number (Node.descendant? · n) (fun p => (n.descendant? p).isSome)
      (walk (.single number true silent) none n) := by
  rw [← walk_loud]
  exact (visits_exposed n).congr fun p => exposed_none

/-- A path leads from a node to each node in its fields, in the fields of these, and so on. -/
theorem held_iff {n m : Node} : Relation.ReflTransGen Held n m ↔ ∃ p, n.descendant? p = some m := by
  constructor
  · intro h
    induction h using Relation.ReflTransGen.head_induction_on with
    | refl => exact ⟨[], rfl⟩
    | @head n c held _ ih =>
      obtain ⟨p, hp⟩ := ih
      obtain ⟨i, hi⟩ := List.getElem?_of_mem (n.children_perm.mem_iff.2 held)
      refine ⟨i :: p, ?_⟩
      show n.children[i]?.bind (Node.descendant? p) = some m
      rw [hi, Option.bind_some, hp]
  · rintro ⟨p, hp⟩
    induction p generalizing n with
    | nil => cases hp; exact .refl
    | cons i p ih =>
      obtain ⟨c, hc, hp⟩ := Option.bind_eq_some_iff.1 hp
      exact .head (n.children_perm.mem_iff.1 (List.mem_of_getElem? hc)) (ih hp)

end

/-- What walks dispatch. A walker that does not descend by itself dispatches the exposed nodes, each
once, in preorder. One that descends by itself dispatches all nodes so, whichever methods are
silent. The children of any node are the nodes that its fields hold, each of them once, where the
fields are those in its view. So without silent methods the two walks are the same, and what is
dispatched are the nodes that are held in fields at any depth. -/
theorem walk_visits (number : Nat) (silent : List Method) (n : Node) :
    Visits number (Node.descendant? · n) (Exposed silent n)
        (walk (.single number false silent) none n) ∧
      Visits number (Node.descendant? · n) (fun p => (n.descendant? p).isSome)
        (walk (.single number true silent) none n) ∧
      (∀ m : Node, m.view = viewOf m.label m.fields ∧ m.children.Perm m.fieldNodes) ∧
      walk (.single number false []) none n = walk (.single number true silent) none n ∧
      ∀ m, (⟨number, m⟩ : Event) ∈ walk (.single number true silent) none n ↔
        Relation.ReflTransGen Held n m := by
  refine ⟨visits_exposed n, visits_all n, fun m => ⟨m.view_fields, m.children_perm⟩,
    walk_loud n, ?_⟩
  intro m
  rw [(visits_all n).mem m, held_iff]
  constructor
  · exact fun ⟨p, _, hp⟩ => ⟨p, hp⟩
  · exact fun ⟨p, hp⟩ => ⟨p, Option.isSome_of_eq_some hp, hp⟩

end Walker

end Wdl
