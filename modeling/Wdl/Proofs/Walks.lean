import Mathlib.Data.List.Nodup
import Wdl.Walker

/-!
# Wdl.Proofs.Walks -- walkers that share a walk

Walkers that descend by themselves (`Walker.Descending`) can be put together, and what is put
together can be put together again. Whatever is put together, the walk goes through the nodes in
preorder (`Node.preorder`), and at each node every walker gets the node once, in the order of the
list. So none of them can tell a walk it shares from a walk of its own: which methods it has
silenced makes no difference, and the inner walks do not descend a second time.

A constituent (`Walker.Within`) is an occurrence in the list, at whatever depth. A walker that
stands in the list twice is two constituents, and both get every node. The numbers of single walkers
(`Walker.numbers`) are there to tell events apart; only where no two are the same does a number name
one constituent.

* `Node.preorder`, `Node.induction`: the nodes at and below a node, and the induction the proofs
  follow.
* `Walker.Descending.walk_eq` and `Walker.Descending.walk_preorder`: what a walk does at one node,
  and what it does at all of them.
* `Walker.multi_walk`: the walk of several walkers and of each of them alone. The first two parts
  ask nothing of the numbers; the third, in which events are picked out by number, asks that they
  differ.
-/

namespace Wdl

/-! ## Preorder -/

/-- A node and all nodes below it, each before its children. -/
def Node.preorder (n : Node) : List Node :=
  n :: n.children.attach.flatMap fun child => preorder child.1
termination_by sizeOf n
decreasing_by exact Node.sizeOf_child child.2

theorem Node.preorder_eq (n : Node) : n.preorder = n :: n.children.flatMap Node.preorder := by
  rw [preorder, List.flatMap_subtype (fun _ _ => rfl), List.unattach_attach]

/-- What holds of a node if it holds of its children holds of all nodes. -/
theorem Node.induction {P : Node → Prop} (step : ∀ n, (∀ c ∈ n.children, P c) → P n) (n : Node) :
    P n :=
  step n fun c _ => Node.induction step c
termination_by sizeOf n
decreasing_by exact Node.sizeOf_child ‹_›

namespace Walker

/-! ## Constituents -/

/-- A walker that descends by itself, and so do all that it is put together from. -/
inductive Descending : Walker → Prop
  | single (number : Nat) (silent : List Method) : Descending (.single number true silent)
  | multi {walkers : List Walker} : (∀ w ∈ walkers, w.Descending) → Descending (.multi walkers)

/-- One walker is a constituent of another, at any depth. -/
inductive Within : Walker → Walker → Prop
  | refl (w : Walker) : Within w w
  | multi {v w : Walker} {walkers : List Walker} : w ∈ walkers → Within v w →
      Within v (.multi walkers)

mutual

/-- The numbers of the single walkers that a walker is put together from, in order. -/
def numbers : Walker → List Nat
  | .single number _ _ => [number]
  | .multi walkers => numbersOf walkers

/-- The numbers of the single walkers that some walkers are put together from, in order. -/
def numbersOf : List Walker → List Nat
  | [] => []
  | w :: rest => w.numbers ++ numbersOf rest

end

theorem numbersOf_eq (walkers : List Walker) : numbersOf walkers = walkers.flatMap numbers := by
  induction walkers with
  | nil => rfl
  | cons w rest ih => rw [numbersOf, ih, List.flatMap_cons]

/-- Only walkers that descend are put together. -/
theorem together?_eq_some {walkers : List Walker} {w : Walker} (h : together? walkers = some w) :
    w = .multi walkers ∧ ∀ v ∈ walkers, v.descends = true := by
  unfold together? at h
  split at h
  · rename_i all
    cases h
    exact ⟨rfl, List.all_eq_true.1 all⟩
  · cases h

theorem Descending.within {v w : Walker} (h : w.Descending) (inside : v.Within w) :
    v.Descending := by
  induction inside with
  | refl => exact h
  | multi mem _ ih =>
    cases h with
    | multi each => exact ih (each _ mem)

/-- The numbers of a constituent stand together. -/
theorem Within.numbers_stretch {v w : Walker} (h : v.Within w) : v.numbers <:+: w.numbers := by
  induction h with
  | refl => exact List.infix_rfl
  | multi mem _ ih =>
    obtain ⟨before, behind, rfl⟩ := List.append_of_mem mem
    refine ih.trans ⟨numbersOf before, numbersOf behind, ?_⟩
    simp [numbers, numbersOf_eq]

/-! ## One node -/

/-- The events of some walkers at one node. -/
def eventsAt (ks : List Nat) (n : Node) : List Event := ks.map fun k => ⟨k, n⟩

theorem eventsAt_flatMap (walkers : List Walker) (n : Node) :
    eventsAt (numbersOf walkers) n = walkers.flatMap fun w => eventsAt w.numbers n := by
  rw [eventsAt, numbersOf_eq, List.map_flatMap]
  rfl

theorem walk_multi (walkers : List Walker) (descend : Option Bool) (n : Node) :
    walk (.multi walkers) descend n =
      (walkers.flatMap fun w => walk w (some false) n) ++
        (if descend.getD true then n.children.flatMap (walk (.multi walkers) none) else []) := by
  rw [walk, List.flatMap_subtype (g := fun w => walk w (some false) n) (fun _ _ => rfl),
    List.flatMap_subtype (g := walk (.multi walkers) none) (fun _ _ => rfl),
    List.unattach_attach, List.unattach_attach]

theorem walk_single (number : Nat) (silent : List Method) (descend : Option Bool) (n : Node) :
    walk (.single number true silent) descend n =
      ⟨number, n⟩ :: (if descend.getD true then
        n.children.flatMap (walk (.single number true silent) none) else []) := by
  rw [walk, List.flatMap_subtype (fun _ _ => rfl), List.unattach_attach]
  rfl

/-- A walker that is told not to descend hands the node on to its constituents and stops. -/
theorem Descending.walk_here {w : Walker} (h : w.Descending) (n : Node) :
    w.walk (some false) n = eventsAt w.numbers n := by
  induction h with
  | single number silent => exact walk_single number silent (some false) n
  | multi _ ih =>
    rw [walk_multi, numbers, eventsAt_flatMap, Option.getD_some, if_neg (by decide),
      List.append_nil]
    exact List.flatMap_congr ih

/-! ## Whole walks -/

/-- A walk goes on to the children once the node is handed on. -/
theorem Descending.walk_eq {w : Walker} (h : w.Descending) (n : Node) :
    w.walk none n = w.walk (some false) n ++ n.children.flatMap (w.walk none) := by
  cases h with
  | single number silent => rw [walk_single, walk_single]; rfl
  | multi each => rw [walk_multi, walk_multi]; simp

/-- A walk goes through the nodes in preorder. -/
theorem Descending.walk_preorder {w : Walker} (h : w.Descending) (n : Node) :
    w.walk none n = n.preorder.flatMap (eventsAt w.numbers) := by
  induction n using Node.induction with
  | step n ih =>
    rw [h.walk_eq, h.walk_here, Node.preorder_eq, List.flatMap_cons, List.flatMap_assoc]
    exact congrArg _ (List.flatMap_congr ih)

/-! ## What a constituent receives -/

/-- Of distinct numbers, those that stand together are picked out by being among them. -/
theorem filter_stretch {as bs : List Nat} (h : as <:+: bs) (distinct : bs.Nodup) :
    bs.filter (fun k => as.contains k) = as := by
  obtain ⟨before, behind, rfl⟩ := h
  obtain ⟨front, -, apart⟩ := List.nodup_append'.1 distinct
  obtain ⟨-, -, apart'⟩ := List.nodup_append'.1 front
  have none_before : before.filter (fun k => as.contains k) = [] := by
    rw [List.filter_eq_nil_iff]
    intro k hk mem
    exact apart' hk (List.contains_iff_mem.1 mem)
  have none_behind : behind.filter (fun k => as.contains k) = [] := by
    rw [List.filter_eq_nil_iff]
    intro k hk mem
    exact apart (List.mem_append_right _ (List.contains_iff_mem.1 mem)) hk
  have all : as.filter (fun k => as.contains k) = as :=
    List.filter_eq_self.2 fun k hk => List.contains_iff_mem.2 hk
  rw [List.filter_append, List.filter_append, none_before, none_behind, all, List.nil_append,
    List.append_nil]

theorem filter_eventsAt {v w : Walker} (inside : v.Within w) (distinct : w.numbers.Nodup)
    (n : Node) : (eventsAt w.numbers n).filter (fun e => v.numbers.contains e.walker) =
      eventsAt v.numbers n := by
  rw [eventsAt, List.filter_map]
  exact congrArg (eventsAt · n) (filter_stretch inside.numbers_stretch distinct)

/-- Walkers that share a walk. A constituent is an occurrence in the list, at whatever depth: a
walker given twice is two constituents. On its own, each constituent gets every node in preorder,
which is one event for each single walker in it. In the shared walk the nodes come in preorder too,
and at each node the walkers in the order of the list, each as often as it occurs there. Both hold
of every list, also where a walker is repeated. `Nodup` only makes a number identify one
constituent: with it, the events that carry the numbers of a constituent are the ones it gets on its
own. -/
theorem multi_walk (walkers : List Walker) (h : ∀ w ∈ walkers, w.Descending) (n : Node) :
    (∀ v : Walker, v.Within (.multi walkers) →
      v.walk none n = n.preorder.flatMap (eventsAt v.numbers)) ∧
    walk (.multi walkers) none n =
      n.preorder.flatMap (fun m => walkers.flatMap fun w => eventsAt w.numbers m) ∧
    ((numbersOf walkers).Nodup → ∀ v : Walker, v.Within (.multi walkers) →
      (walk (.multi walkers) none n).filter (fun e => v.numbers.contains e.walker) =
        v.walk none n) := by
  have all : (multi walkers).Descending := .multi h
  have alone : ∀ v : Walker, v.Within (.multi walkers) →
      v.walk none n = n.preorder.flatMap (eventsAt v.numbers) :=
    fun v inside => (all.within inside).walk_preorder n
  refine ⟨alone, ?_, ?_⟩
  · rw [all.walk_preorder n]
    exact List.flatMap_congr fun m _ => eventsAt_flatMap walkers m
  · intro distinct v inside
    rw [all.walk_preorder n, alone v inside, List.filter_flatMap]
    exact List.flatMap_congr fun m _ => filter_eventsAt inside distinct m

/-- Two walkers that were put together before share a walk over a pair with a third one. -/
theorem multi_walk_nested :
    let inner : Walker := .multi [.single 1 true [.expr], .single 2 true []]
    let n : Node := .expr (.pair ⟨0, 5⟩ (.null ⟨1, 2⟩) (.null ⟨3, 4⟩))
    let shared := walk (.multi [.single 0 true [], inner]) none n
    shared.map Event.walker = [0, 1, 2, 0, 1, 2, 0, 1, 2] ∧
      shared.filter (fun e => inner.numbers.contains e.walker) = inner.walk none n := by
  intro inner n shared
  have descending : ∀ w ∈ [.single 0 true [], inner], w.Descending := by
    rw [List.forall_mem_cons, List.forall_mem_singleton]
    refine ⟨.single 0 [], .multi ?_⟩
    rw [List.forall_mem_cons, List.forall_mem_singleton]
    exact ⟨.single 1 _, .single 2 _⟩
  obtain ⟨-, course, received⟩ := multi_walk _ descending n
  refine ⟨?_, received (by decide) inner (.multi (by simp) (.refl _))⟩
  have order : n.preorder = [n, .expr (.null ⟨1, 2⟩), .expr (.null ⟨3, 4⟩)] := by
    simp [n, Node.preorder_eq, Node.children, Expr.children]
  show (walk _ none n).map Event.walker = _
  rw [course, order]
  rfl

end Walker

end Wdl
