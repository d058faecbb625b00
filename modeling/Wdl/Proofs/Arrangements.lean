import Mathlib.Data.List.Perm.Basic
import Wdl.Proofs.Comparison
import Wdl.Proofs.Rebuilding
import Wdl.Proofs.Sequencing

/-!
# Wdl.Proofs.Arrangements -- sections in any order

The sections of a task or workflow are found by their kinds, so it does not matter in which order
they are written, nor where among the other items. The other items keep their order: the private
declarations of a task, and what the body of a workflow is made of. Items that are moved about in a
text are at other places than before. How far each is moved does not matter, as nothing that is
built depends on places.

* `Rearranged move kind? xs ys` says that `ys` are the items `xs` in another order, each perhaps
  elsewhere; `Task.Rearranged` and `Workflow.Rearranged` are that for their items.
* `FirstRepeat kind? items x kind` says that `x` is the first section whose kind has occurred
  before.
* What tasks and workflows have in common is a `Body`, and the results are shown of any body:
  `Body.Builds.rearranged` for items that repeat no kind, `Body.repeats` for items that do.
  `taskBody` and `workflowBody` are the two instances.

`sections_anywhere` is the result. A task or workflow that is written in another order is the same
but for places. If a kind of section occurs twice, no order is accepted, and each is rejected at the
first section whose kind occurs before it. There is one exception: the name is checked before the
sections are, so a task or workflow whose name is reserved is rejected for its name,
`Violation.reservedName`, and the repeated section is never reported. `sections_repeated_reserved`
is a task of that sort.
-/

namespace Wdl

variable {α β ι : Type}

/-! ## Builders that end

`Builder.Returns` is about what is built; `Builder.Ends` is about the errors too, which the second
half of the result needs. -/

/-- How a builder ends, whatever was warned of before. -/
def Builder.Ends (b : Builder α) (r : Except Violated α) : Prop :=
  ∀ before, ∃ after, StateT.run (ExceptT.run b) before = (r, after)

namespace Builder

/-- A check ends as it is. -/
theorem ends_check (c : Checked α) : (Build.check c).Ends c := fun before => ⟨before, rfl⟩

/-- What comes first is built, so the rest decides. -/
theorem ends_bind {b : Builder α} {f : α → Builder β} {x : α} {r : Except Violated β}
    (first : b.Returns x) (rest : (f x).Ends r) : (b >>= f).Ends r := by
  intro before
  obtain ⟨between, h⟩ := first before
  obtain ⟨after, h'⟩ := rest between
  refine ⟨after, ?_⟩
  rw [ExceptT.run_bind, StateT.run_bind, h]
  exact h'

end Builder

/-! ## Items in another order

`Elsewhere` moves each item by a function of its own, so that nothing has to be said of where an
item comes to stand. -/

/-- Something at its place or at another one. -/
def Elsewhere (move : (Nat → Nat) → α → α) (x y : α) : Prop := y = x ∨ ∃ f, y = move f x

/-- Items in another order, each of them perhaps at another place. Those that are no sections are
in the order that they were in. -/
def Rearranged (move : (Nat → Nat) → ι → ι) (kind? : ι → Option Build.SectionKind)
    (xs ys : List ι) : Prop :=
  ∃ moved, List.Forall₂ (Elsewhere move) xs moved ∧ moved.Perm ys ∧
    moved.filter (fun x => (kind? x).isNone) = ys.filter fun x => (kind? x).isNone

/-- The first of some items that is a section of a kind that has occurred before. -/
def FirstRepeat (kind? : ι → Option Build.SectionKind) (items : List ι) (x : ι)
    (kind : Build.SectionKind) : Prop :=
  ∃ before after, items = before ++ x :: after ∧ kind? x = some kind ∧
    kind ∈ before.filterMap kind? ∧ (before.filterMap kind?).Nodup

namespace Surface

/-- The kind of section that a meta section is. -/
def MetaKind.section : MetaKind → Build.SectionKind
  | .metaSection => .metadata
  | .parameterMeta => .parameterMeta

/-- The kind of section that an item of a task is, if it is one. -/
def TaskItem.kind? : TaskItem → Option Build.SectionKind
  | .inputs _ _ => some .inputs
  | .outputs _ _ => some .outputs
  | .metadata s => some s.kind.section
  | .runtime _ _ => some .runtime
  | .decl _ => none

/-- Where an item of a task is. -/
def TaskItem.range : TaskItem → Range
  | .inputs r _ => r
  | .outputs r _ => r
  | .metadata s => s.range
  | .runtime r _ => r
  | .decl d => d.range

/-- The items of a task, but for its command. -/
def Task.items (t : Task) : List TaskItem := t.before ++ t.behind

/-- The task with its sections, its command and its declarations in another order. -/
structure Task.Rearranged (t t' : Task) : Prop where
  name : t'.name.text = t.name.text
  command : Elsewhere Command.move t.command t'.command
  items : Wdl.Rearranged TaskItem.move TaskItem.kind? t.items t'.items

/-- The kind of section that an item of a workflow is, if it is one. -/
def WorkflowItem.kind? : WorkflowItem → Option Build.SectionKind
  | .inputs _ _ => some .inputs
  | .outputs _ _ => some .outputs
  | .metadata s => some s.kind.section
  | .node _ => none

/-- Where an element of a body is. -/
def WorkflowNode.range : WorkflowNode → Range
  | .decl d => d.range
  | .call c => c.range
  | .scatter r _ _ _ => r
  | .conditional r _ _ => r

/-- Where an item of a workflow is. -/
def WorkflowItem.range : WorkflowItem → Range
  | .inputs r _ => r
  | .outputs r _ => r
  | .metadata s => s.range
  | .node n => n.range

/-- The workflow with its sections anywhere among the elements of its body. -/
structure Workflow.Rearranged (w w' : Workflow) : Prop where
  name : w'.name.text = w.name.text
  items : Wdl.Rearranged WorkflowItem.move WorkflowItem.kind? w.items w'.items

end Surface

/-- Items some of whose kinds are repeated have a first one that repeats a kind. -/
theorem exists_firstRepeat {kind? : ι → Option Build.SectionKind} {items : List ι}
    (repeated : ¬ (items.filterMap kind?).Nodup) : ∃ x kind, FirstRepeat kind? items x kind := by
  induction items using List.reverseRecOn with
  | nil => exact absurd List.nodup_nil repeated
  | append_singleton items x ih =>
    by_cases fresh : (items.filterMap kind?).Nodup
    · cases known : kind? x with
      | none =>
        rw [List.filterMap_append, List.filterMap_cons_none known, List.filterMap_nil,
          List.append_nil] at repeated
        exact absurd fresh repeated
      | some kind =>
        refine ⟨x, kind, items, [], rfl, known, ?_, fresh⟩
        by_contra new
        refine repeated ?_
        rw [List.filterMap_append, List.filterMap_cons_some known, List.filterMap_nil]
        exact List.nodup_append_comm.1 (List.nodup_cons.2 ⟨new, fresh⟩)
    · obtain ⟨y, kind, before, after, split, rest⟩ := ih fresh
      exact ⟨y, kind, before, after ++ [x], by rw [split]; simp, rest⟩

namespace Build

/-! ## What is seen of sections

Sections are compared by kind and content. A section that is missing is seen as an empty one
(`fieldOf`), so that the order of entries does not matter as long as no kind is repeated
(`fieldOf_perm`). -/

/-- What a section holds, wherever it is. -/
def Section.view : Section → View
  | .inputs ds => .list (ds.map Decl.view)
  | .outputs ds => .list (ds.map Decl.view)
  | .metadata members => .mapping (viewMetaMembers members)
  | .parameterMeta members => .mapping (viewMetaMembers members)
  | .runtime entries => .mapping (entries.map fun (key, e) => (key, e.view))

/-- A section as an entry under its kind. -/
def Section.entry (s : Section) : SectionKind × View := (s.kind, s.view)

/-- What is seen of a section does not depend on its place. -/
theorem Section.entry_move (f : Nat → Nat) (s : Section) : (s.move f).entry = s.entry := by
  rw [entry, entry, kind_move]
  refine congrArg _ ?_
  cases s with
  | inputs ds => exact congrArg View.list (declViews_move ds)
  | outputs ds => exact congrArg View.list (declViews_move ds)
  | metadata members => exact congrArg View.mapping (viewMetaMembers_move members)
  | parameterMeta members => exact congrArg View.mapping (viewMetaMembers_move members)
  | runtime entries =>
    show View.mapping ((moveEntries f entries).map _) = View.mapping (entries.map _)
    rw [moveEntries, List.map_map]
    exact congrArg _ (List.map_congr_left fun x _ => congrArg (x.1, ·) x.2.view_move)

/-- What is seen of the section of a kind, or of none. -/
def fieldOf (kind : SectionKind) (default : View) (entries : List (SectionKind × View)) : View :=
  (entries.lookup kind).getD default

/-- With distinct kinds, the order of sections does not matter. -/
theorem fieldOf_perm {entries entries' : List (SectionKind × View)} (perm : entries.Perm entries')
    (nodup : (entries.map Prod.fst).Nodup) (kind : SectionKind) (default : View) :
    fieldOf kind default entries = fieldOf kind default entries' := by
  have same : entries.lookup kind = entries'.lookup kind := by
    refine Option.ext fun view => ?_
    rw [View.lookup_eq_some_iff nodup, View.lookup_eq_some_iff ((perm.map _).nodup nodup)]
    exact perm.mem_iff
  rw [fieldOf, fieldOf, same]

/-- What is seen of an item: a section as an entry, or something else. -/
def Item.look (view : α → View) : Item α → (SectionKind × View) ⊕ View
  | .block _ s => .inl s.entry
  | .other x => .inr (view x)

/-- What is seen of an item does not depend on its place. -/
theorem Item.look_move {view : α → View} {f : Nat → Nat} {m : α → α}
    (same : ∀ x, view (m x) = view x) (X : Item α) : (X.move f m).look view = X.look view := by
  cases X with
  | block r s => exact congrArg Sum.inl (s.entry_move f)
  | other x => exact congrArg Sum.inr (same x)

/-- What is seen of the sections among some items. -/
theorem sections_look (view : α → View) (items : List (Item α)) :
    (sectionsOf items).map (fun x => x.2.entry) =
      (items.map (Item.look view)).filterMap Sum.getLeft? := by
  rw [sectionsOf, List.map_filterMap, List.filterMap_map]
  refine List.filterMap_congr fun item _ => ?_
  cases item <;> rfl

/-- What is seen of the others among some items. -/
theorem others_look (view : α → View) (items : List (Item α)) :
    (othersOf items).map view = (items.map (Item.look view)).filterMap Sum.getRight? := by
  rw [othersOf, List.map_filterMap, List.filterMap_map]
  refine List.filterMap_congr fun item _ => ?_
  cases item <;> rfl

/-- Where an item is that is a section, and its kind. -/
def Item.mark? : Item α → Option (Range × SectionKind)
  | .block r s => some (r, s.kind)
  | .other _ => none

/-- The sections among some items, by their places and kinds. -/
theorem sections_mark (items : List (Item α)) :
    (sectionsOf items).map (fun x => (x.1, x.2.kind)) = items.filterMap Item.mark? := by
  rw [sectionsOf, List.map_filterMap]
  refine List.filterMap_congr fun item _ => ?_
  cases item <;> rfl

/-! ## Checking sections

The check goes through the sections with the kinds that have occurred, and fails at the first that
occurs again. -/

/-- Sections of which no kind is repeated, given those that occurred before. -/
theorem repeatedAfter_eq_none {seen : List SectionKind} {ss : List (Range × Section)} :
    repeatedAfter seen ss = none ↔
      (ss.map fun x => x.2.kind).Nodup ∧ ∀ x ∈ ss, x.2.kind ∉ seen := by
  induction ss generalizing seen with
  | nil => simp [repeatedAfter]
  | cons x ss ih =>
    obtain ⟨r, s⟩ := x
    rw [repeatedAfter]
    split
    · rename_i again
      rw [List.contains_iff_mem] at again
      simp [again]
    · rename_i fresh
      rw [List.contains_iff_mem] at fresh
      rw [ih, List.map_cons, List.nodup_cons, List.forall_mem_cons]
      simp only [List.mem_cons, not_or, List.mem_map, not_exists, not_and]
      constructor
      · rintro ⟨nodup, others⟩
        exact ⟨⟨fun y hy => (others y hy).1, nodup⟩, fresh, fun y hy => (others y hy).2⟩
      · rintro ⟨⟨apart, nodup⟩, -, others⟩
        exact ⟨nodup, fun y hy => ⟨apart y hy, others y hy⟩⟩

/-- The first section whose kind has occurred is found. -/
theorem repeatedAfter_eq_some {seen : List SectionKind} {before after : List (Range × Section)}
    {x : Range × Section} (fresh : repeatedAfter seen before = none)
    (again : x.2.kind ∈ seen ∨ x.2.kind ∈ before.map fun x => x.2.kind) :
    repeatedAfter seen (before ++ x :: after) = some (x.1, x.2.kind) := by
  induction before generalizing seen with
  | nil =>
    have known : seen.contains x.2.kind = true := by simpa using again
    rw [List.nil_append, repeatedAfter, if_pos known]
  | cons y before ih =>
    obtain ⟨r, s⟩ := y
    rw [repeatedAfter] at fresh
    split at fresh
    · cases fresh
    · rename_i new
      rw [List.cons_append, repeatedAfter, if_neg new]
      refine ih fresh ?_
      simpa [or_assoc, or_comm, or_left_comm] using again

/-- The check passes just if no kind is repeated. -/
theorem checkSections_eq_ok {owner : String} {items : List (Item α)} :
    checkSections owner items = .ok () ↔ ((sectionsOf items).map fun x => x.2.kind).Nodup := by
  have all : repeatedAfter [] (sectionsOf items) = none ↔ _ := repeatedAfter_eq_none
  rw [and_iff_left (by simp)] at all
  rw [← all, checkSections]
  cases repeatedAfter [] (sectionsOf items) <;> simp

/-- A meta section is built to a section of its kind. -/
theorem metaSection_kind {N : CharacterNames} {s : Surface.MetaSection} {S : Section}
    (h : metaSection N s = .ok S) :
    S.kind = s.kind.section := by
  obtain ⟨r, kind, members⟩ := s
  obtain ⟨_, -, h⟩ := bind_eq_ok.1 h
  obtain ⟨_, -, h⟩ := bind_eq_ok.1 h
  cases h
  cases kind <;> rfl

/-! ## Bodies of items

-/

/-- What the items of tasks and those of workflows have in common: they are built to sections and
other things, whatever was warned of before, and moving them changes nothing that is seen. -/
structure Body (ι α : Type) where
  build : ι → Builder (Item α)
  move : (Nat → Nat) → ι → ι
  kind? : ι → Option SectionKind
  range : ι → Range
  view : α → View
  steady : ∀ x, (build x).Steady
  moves : ∀ f x X, (build x).Gives X →
    ∃ Y, (build (move f x)).Gives Y ∧ Y.look view = X.look view
  marks : ∀ x X, (build x).Gives X → X.mark? = (kind? x).map fun kind => (range x, kind)
  kind_move : ∀ f x, kind? (move f x) = kind? x

namespace Body

variable (b : Body ι α) {xs ys : List ι} {Xs Ys : List (Item α)}

/-- Items are built one by one. -/
def Builds (xs : List ι) (Xs : List (Item α)) : Prop :=
  List.Forall₂ (fun x X => (b.build x).Gives X) xs Xs

variable {b}

/-- Items are built to one list. -/
theorem Builds.unique (h : b.Builds xs Xs) (h' : b.Builds xs Ys) : Xs = Ys := by
  refine List.right_unique_forall₂' (fun x X Y hX hY => ?_) h h'
  obtain ⟨_, run⟩ := b.steady x X hX []
  obtain ⟨_, run'⟩ := b.steady x Y hY []
  rw [run] at run'
  cases run'
  rfl

/-- The sections that are built are where the sections are written, and of their kinds. -/
theorem Builds.marks (h : b.Builds xs Xs) :
    (sectionsOf Xs).map (fun x => (x.1, x.2.kind)) =
      xs.filterMap fun x => (b.kind? x).map fun kind => (b.range x, kind) := by
  rw [sections_mark]
  induction h with
  | nil => rfl
  | cons first _ ih => rw [List.filterMap_cons, List.filterMap_cons, b.marks _ _ first, ih]

/-- Without their places the sections are their kinds. -/
theorem kinds_of_marks {ss : List (Range × Section)}
    (marks : (ss.map fun x => (x.1, x.2.kind)) =
      xs.filterMap fun x => (b.kind? x).map fun kind => (b.range x, kind)) :
    (ss.map fun x => x.2.kind) = xs.filterMap b.kind? := by
  have kinds := congrArg (List.map Prod.snd) marks
  rw [List.map_map, List.map_filterMap] at kinds
  refine kinds.trans (List.filterMap_congr fun x _ => ?_)
  rw [Option.map_map]
  exact Option.map_id'

/-- Items that are no sections are built to the others. -/
theorem Builds.others (h : b.Builds xs Xs) :
    b.Builds (xs.filter fun x => (b.kind? x).isNone) (Xs.filter fun X => X.mark?.isNone) := by
  refine List.rel_filter (fun x X given => ?_) h
  show (b.kind? x).isNone = true ↔ X.mark?.isNone = true
  rw [b.marks x X given, Option.isNone_map]

/-- The others are those that are no sections. -/
theorem othersOf_filter (items : List (Item α)) :
    othersOf (items.filter fun X => X.mark?.isNone) = othersOf items := by
  induction items with
  | nil => rfl
  | cons X items ih =>
    cases X with
    | block r s => exact ih
    | other x => exact congrArg (x :: ·) ih

/-- Each item is built elsewhere to what is seen of it. -/
theorem Builds.elsewhere (h : b.Builds xs Xs) (moved : List.Forall₂ (Elsewhere b.move) xs ys) :
    ∃ Ys, b.Builds ys Ys ∧ Ys.map (Item.look b.view) = Xs.map (Item.look b.view) := by
  induction moved generalizing Xs with
  | nil =>
    cases h
    exact ⟨[], .nil, rfl⟩
  | @cons x y xs ys first _ ih =>
    cases h with
    | @cons _ X _ Xs given rest =>
      obtain ⟨Ys, built, looks⟩ := ih rest
      obtain ⟨Y, given', look⟩ :
          ∃ Y, (b.build y).Gives Y ∧ Y.look b.view = X.look b.view := by
        rcases first with rfl | ⟨f, rfl⟩
        · exact ⟨X, given, rfl⟩
        · exact b.moves f x X given
      exact ⟨Y :: Ys, .cons given' built, by rw [List.map_cons, List.map_cons, look, looks]⟩

/-- In another order the items are built to the same sections in another order, and to the same
other things in their order. -/
theorem Builds.reordered (h : b.Builds xs Xs) (order : Rearranged b.move b.kind? xs ys) :
    ∃ Ys, b.Builds ys Ys ∧
      ((sectionsOf Ys).map fun x => x.2.entry).Perm ((sectionsOf Xs).map fun x => x.2.entry) ∧
      (othersOf Ys).map b.view = (othersOf Xs).map b.view := by
  obtain ⟨moved, elsewhere, perm, kept⟩ := order
  obtain ⟨Ms, built, looks⟩ := h.elsewhere elsewhere
  obtain ⟨Ys, built', perm'⟩ := List.perm_comp_forall₂ perm.symm built
  have others : Ys.filter (fun X => X.mark?.isNone) = Ms.filter fun X => X.mark?.isNone :=
    Builds.unique (kept ▸ Builds.others built') (Builds.others built)
  refine ⟨Ys, built', ?_, ?_⟩
  · rw [sections_look b.view, sections_look b.view, ← looks]
    exact (perm'.map _).filterMap _
  · rw [← othersOf_filter Ys, others, othersOf_filter, others_look, others_look, looks]

/-- If no kind is repeated, none is in another order, and each kind is seen as the same. -/
theorem Builds.rearranged (h : b.Builds xs Xs) (order : Rearranged b.move b.kind? xs ys)
    (nodup : ((sectionsOf Xs).map fun x => x.2.kind).Nodup) :
    ∃ Ys, b.Builds ys Ys ∧ ((sectionsOf Ys).map fun x => x.2.kind).Nodup ∧
      (∀ kind default, fieldOf kind default ((sectionsOf Ys).map fun x => x.2.entry) =
        fieldOf kind default ((sectionsOf Xs).map fun x => x.2.entry)) ∧
      (othersOf Ys).map b.view = (othersOf Xs).map b.view := by
  obtain ⟨Ys, built, entries, others⟩ := h.reordered order
  have kinds : ((sectionsOf Ys).map fun x => x.2.entry).map Prod.fst =
      (sectionsOf Ys).map fun x => x.2.kind := by rw [List.map_map]; rfl
  have fresh : (((sectionsOf Ys).map fun x => x.2.entry).map Prod.fst).Nodup :=
    (entries.map Prod.fst).symm.nodup (by rw [List.map_map]; exact nodup)
  exact ⟨Ys, built, kinds ▸ fresh, fieldOf_perm entries fresh, others⟩

/-- The check of sections fails at the first item that repeats a kind. -/
theorem Builds.repeated (h : b.Builds xs Xs) {x : ι} {kind : SectionKind}
    (first : FirstRepeat b.kind? xs x kind) (owner : String) :
    checkSections owner Xs = .error ⟨.repeatedSection kind.name owner, b.range x⟩ := by
  obtain ⟨before, after, rfl, known, again, fresh⟩ := first
  have marks := h.marks
  rw [List.filterMap_append, List.filterMap_cons_some (b := (b.range x, kind)) (by rw [known]; rfl)]
    at marks
  obtain ⟨Bs, rest, split, marksB, marksRest⟩ := List.map_eq_append_iff.1 marks
  obtain ⟨X, As, rfl, mark, -⟩ := List.map_eq_cons_iff.1 marksRest
  obtain ⟨range, kindX⟩ := Prod.mk.inj mark
  have kinds := kinds_of_marks marksB
  have found : repeatedAfter [] (sectionsOf Xs) = some (X.1, X.2.kind) := by
    rw [split]
    refine repeatedAfter_eq_some (repeatedAfter_eq_none.2 ⟨?_, by simp⟩) (.inr ?_)
    · rw [kinds]
      exact fresh
    · rw [kinds, kindX]
      exact again
  rw [checkSections, found, range, kindX]

/-- What is built from two lists, one behind the other, is one list behind the other. -/
theorem Builds.split {Zs : List (Item α)} (h : b.Builds (xs ++ ys) Zs) :
    ∃ Xs Ys, Zs = Xs ++ Ys ∧ b.Builds xs Xs ∧ b.Builds ys Ys := by
  induction xs generalizing Zs with
  | nil => exact ⟨[], Zs, rfl, .nil, h⟩
  | cons x xs ih =>
    cases h with
    | @cons _ X _ Zs first rest =>
      obtain ⟨Xs, Ys, rfl, hXs, hYs⟩ := ih rest
      exact ⟨X :: Xs, Ys, rfl, .cons first hXs, hYs⟩

/-- A builder of items returns what they are built to. -/
theorem Builds.returns (h : b.Builds xs Xs) : (each b.build xs).Returns Xs :=
  Builder.returns_each (h.imp fun x X given => b.steady x X given)

/-- Items that are all built are built one by one. -/
theorem exists_builds (each : ∀ x ∈ xs, ∃ X, (b.build x).Gives X) : ∃ Xs, b.Builds xs Xs := by
  induction xs with
  | nil => exact ⟨[], .nil⟩
  | cons x xs ih =>
    rw [List.forall_mem_cons] at each
    obtain ⟨X, first⟩ := each.1
    obtain ⟨Xs, rest⟩ := ih each.2
    exact ⟨X :: Xs, .cons first rest⟩

/-- At other places the items are of the same kinds. -/
theorem kinds_elsewhere (moved : List.Forall₂ (Elsewhere b.move) xs ys) :
    xs.filterMap b.kind? = ys.filterMap b.kind? := by
  induction moved with
  | nil => rfl
  | @cons x y xs ys first _ ih =>
    have kind : b.kind? y = b.kind? x := by
      rcases first with rfl | ⟨f, rfl⟩
      · rfl
      · exact b.kind_move f x
    rw [List.filterMap_cons, List.filterMap_cons, kind, ih]

/-- In another order the same kinds occur. -/
theorem kinds_rearranged (order : Rearranged b.move b.kind? xs ys) :
    (xs.filterMap b.kind?).Perm (ys.filterMap b.kind?) := by
  obtain ⟨moved, elsewhere, perm, -⟩ := order
  rw [kinds_elsewhere elsewhere]
  exact perm.filterMap _

/-- Where a kind is repeated, the check of sections fails in any order, at the first item that
repeats one. -/
theorem repeats (b : Body ι α) (order : Rearranged b.move b.kind? xs ys)
    (each : ∀ x ∈ xs, ∃ X, (b.build x).Gives X) (repeated : ¬ (xs.filterMap b.kind?).Nodup)
    (owner : String) :
    ∃ x kind, FirstRepeat b.kind? ys x kind ∧ ∃ Ys, b.Builds ys Ys ∧
      checkSections owner Ys = .error ⟨.repeatedSection kind.name owner, b.range x⟩ := by
  have kinds := kinds_rearranged order
  obtain ⟨x, kind, first⟩ := exists_firstRepeat fun nodup => repeated (kinds.symm.nodup nodup)
  obtain ⟨Xs, items⟩ := exists_builds each
  obtain ⟨Ys, items', -⟩ := Builds.reordered items order
  exact ⟨x, kind, first, Ys, items', Builds.repeated items' first owner⟩

end Body

/-! ## Fields of tasks and workflows

`taskView` and `workflowView` list the fields of a task and of a workflow as functions of the
sections by kind. That what is put together is seen so comes from `findSection_view`, once for all
five kinds. -/

/-- What the first section of a kind holds, or nothing, is seen under its kind. -/
theorem findSection_view {pick : Section → Option (List β)} {kind : SectionKind}
    (see : List β → View)
    (picks : ∀ s, (pick s).map see = if s.kind = kind then some s.view else none)
    (ss : List Section) :
    see ((ss.findSome? pick).getD []) = fieldOf kind (see []) (ss.map Section.entry) := by
  induction ss with
  | nil => rfl
  | cons s ss ih =>
    rw [List.findSome?_cons, List.map_cons, fieldOf, Section.entry, List.lookup_cons]
    have pick := picks s
    by_cases same : s.kind = kind
    · rw [if_pos same] at pick
      obtain ⟨xs, eq, saw⟩ := Option.map_eq_some_iff.1 pick
      rw [eq, beq_iff_eq.2 same.symm]
      exact saw
    · rw [if_neg same, Option.map_eq_none_iff] at pick
      rw [pick, beq_false_of_ne (Ne.symm same)]
      exact ih

/-- What is seen of a task with some sections, given by their kinds. -/
def taskView (name : String) (entries : List (SectionKind × View)) (others : List View)
    (command : View) : View :=
  .node ⟨"Tree", "Task"⟩
    [("name", .name name), ("inputs", fieldOf .inputs (.list []) entries),
     ("postinputs", .list others), ("command", command),
     ("outputs", fieldOf .outputs (.list []) entries),
     ("parameter_meta", fieldOf .parameterMeta (.mapping []) entries),
     ("runtime", fieldOf .runtime (.mapping []) entries),
     ("meta", fieldOf .metadata (.mapping []) entries)]

/-- What is seen of a workflow with some sections, given by their kinds. -/
def workflowView (name : String) (entries : List (SectionKind × View)) (others : List View) :
    View :=
  .node ⟨"Tree", "Workflow"⟩
    [("name", .name name), ("inputs", fieldOf .inputs (.list []) entries),
     ("body", .list others), ("outputs", fieldOf .outputs (.list []) entries),
     ("parameter_meta", fieldOf .parameterMeta (.mapping []) entries),
     ("meta", fieldOf .metadata (.mapping []) entries)]

section Fields

variable (ss : List Section)

theorem inputsOf_view : View.list ((inputsOf ss).map Decl.view) =
    fieldOf .inputs (.list []) (ss.map Section.entry) :=
  findSection_view (fun ds => .list (ds.map Decl.view)) (fun s => by cases s <;> rfl) ss

theorem outputsOf_view : View.list ((outputsOf ss).map Decl.view) =
    fieldOf .outputs (.list []) (ss.map Section.entry) :=
  findSection_view (fun ds => .list (ds.map Decl.view)) (fun s => by cases s <;> rfl) ss

theorem metadataOf_view : View.mapping (viewMetaMembers (metadataOf ss)) =
    fieldOf .metadata (.mapping []) (ss.map Section.entry) :=
  findSection_view (fun ms => .mapping (viewMetaMembers ms)) (fun s => by cases s <;> rfl) ss

theorem parameterMetaOf_view : View.mapping (viewMetaMembers (parameterMetaOf ss)) =
    fieldOf .parameterMeta (.mapping []) (ss.map Section.entry) :=
  findSection_view (fun ms => .mapping (viewMetaMembers ms)) (fun s => by cases s <;> rfl) ss

theorem runtimeOf_view : View.mapping ((runtimeOf ss).map fun (key, e) => (key, e.view)) =
    fieldOf .runtime (.mapping []) (ss.map Section.entry) :=
  findSection_view (fun es : List (String × Expr) =>
    .mapping (es.map fun (key, e) => (key, e.view))) (fun s => by cases s <;> rfl) ss

end Fields

/-- A task is put together if no kind of section is repeated, and it is seen by its kinds. -/
theorem assembleTask_eq_ok {r : Range} {name : String} {items : List (Item Decl)} {c : Command}
    {T : Task} (h : assembleTask r name items c = .ok T) :
    ((sectionsOf items).map fun x => x.2.kind).Nodup ∧
      T.view = taskView name ((sectionsOf items).map fun x => x.2.entry)
        ((othersOf items).map Decl.view) c.view := by
  obtain ⟨_, checked, h⟩ := bind_eq_ok.1 h
  cases h
  refine ⟨checkSections_eq_ok.1 checked, ?_⟩
  have entries : ((sectionsOf items).map fun x => x.2.entry) =
      ((sectionsOf items).map Prod.snd).map Section.entry := by rw [List.map_map]; rfl
  simp only [Task.view, taskView, entries, inputsOf_view, outputsOf_view, metadataOf_view,
    parameterMetaOf_view, runtimeOf_view]

/-- A task is put together if no kind of section is repeated. -/
theorem assembleTask_of_nodup (r : Range) (name : String) {items : List (Item Decl)} (c : Command)
    (nodup : ((sectionsOf items).map fun x => x.2.kind).Nodup) :
    ∃ T, assembleTask r name items c = .ok T := by
  rw [assembleTask, checkSections_eq_ok.2 nodup]
  exact ⟨_, rfl⟩

/-- A workflow is put together if no kind of section is repeated, and it is seen by its kinds. -/
theorem assembleWorkflow_eq_ok {r : Range} {name : String} {items : List (Item WorkflowNode)}
    {W : Workflow} (h : assembleWorkflow r name items = .ok W) :
    ((sectionsOf items).map fun x => x.2.kind).Nodup ∧
      W.view = workflowView name ((sectionsOf items).map fun x => x.2.entry)
        ((othersOf items).map WorkflowNode.view) := by
  obtain ⟨_, checked, h⟩ := bind_eq_ok.1 h
  cases h
  refine ⟨checkSections_eq_ok.1 checked, ?_⟩
  have entries : ((sectionsOf items).map fun x => x.2.entry) =
      ((sectionsOf items).map Prod.snd).map Section.entry := by rw [List.map_map]; rfl
  simp only [Workflow.view, workflowView, entries, inputsOf_view, outputsOf_view, metadataOf_view,
    parameterMetaOf_view, viewNodes_eq]

/-- A workflow is put together if no kind of section is repeated. -/
theorem assembleWorkflow_of_nodup (r : Range) (name : String) {items : List (Item WorkflowNode)}
    (nodup : ((sectionsOf items).map fun x => x.2.kind).Nodup) :
    ∃ W, assembleWorkflow r name items = .ok W := by
  rw [assembleWorkflow, checkSections_eq_ok.2 nodup]
  exact ⟨_, rfl⟩

/-! ## Tasks

-/

/-- The items of tasks. -/
def taskBody (rules : Rules) : Body Surface.TaskItem Decl where
  build := taskItem rules
  move := Surface.TaskItem.move
  kind? := Surface.TaskItem.kind?
  range := Surface.TaskItem.range
  view := Decl.view
  steady := steady_taskItem rules
  moves := by
    rintro f x X ⟨before, after, run⟩
    obtain ⟨after', run'⟩ := taskItem_carries rules x X before after before run
    exact ⟨_, ⟨before, after', run'⟩, X.look_move fun d => d.view_move⟩
  marks := by
    intro x X given
    cases x with
    | runtime r entries =>
      obtain ⟨_, -, given⟩ := Builder.gives_bind given
      obtain ⟨_, -, given⟩ := Builder.gives_bind given
      cases Builder.gives_pure given
      rfl
    | metadata s =>
      obtain ⟨S, hS, given⟩ := Builder.gives_bind given
      cases Builder.gives_pure given
      exact congrArg (fun kind => some (s.range, kind)) (metaSection_kind (Builder.gives_check hS))
    | _ =>
      obtain ⟨_, -, given⟩ := Builder.gives_bind given
      cases Builder.gives_pure given
      rfl
  kind_move := by
    intro f x
    cases x <;> rfl

/-- The items of workflows. -/
def workflowBody (rules : Rules) : Body Surface.WorkflowItem WorkflowNode where
  build := fun x => check (workflowItem rules x)
  move := Surface.WorkflowItem.move
  kind? := Surface.WorkflowItem.kind?
  range := Surface.WorkflowItem.range
  view := WorkflowNode.view
  steady := fun x => Builder.steady_check _
  moves := by
    intro f x X given
    have built := workflowItem_carries (f := f) rules x X (Builder.gives_check given)
    exact ⟨_, ⟨[], [], congrArg (·, []) built⟩, X.look_move fun n => n.view_move⟩
  marks := by
    intro x X given
    have given := Builder.gives_check given
    cases x with
    | metadata s =>
      obtain ⟨S, hS, given⟩ := bind_eq_ok.1 given
      cases given
      exact congrArg (fun kind => some (s.range, kind)) (metaSection_kind hS)
    | _ =>
      obtain ⟨_, -, given⟩ := bind_eq_ok.1 given
      cases given
      rfl
  kind_move := by
    intro f x
    cases x <;> rfl

variable {rules : Rules}

/-- A check behind a check is one check. -/
theorem check_bind (c : Checked α) (f : α → Checked β) :
    (do let x ← check c; check (f x)) = check (c >>= f) := by
  cases c <;> rfl

/-- A task whose items and command are built ends with its name and its sections. -/
theorem task_ends {t : Surface.Task} {Xs : List (Item Decl)} {C : Command}
    (items : (taskBody rules).Builds t.items Xs) (built : (command rules t.command).Gives C) :
    (task rules t).Ends (do
      checkName rules t.name
      assembleTask t.range t.name.text Xs C) := by
  obtain ⟨Bs, As, rfl, before, behind⟩ := items.split
  refine Builder.ends_bind before.returns (Builder.ends_bind (steady_command rules _ _ built)
    (Builder.ends_bind behind.returns ?_))
  rw [check_bind]
  exact Builder.ends_check _

/-- A workflow whose items are built ends with its name and its sections. -/
theorem workflow_ends {w : Surface.Workflow} {Xs : List (Item WorkflowNode)}
    (items : (workflowBody rules).Builds w.items Xs) :
    workflow rules w = (do
      checkName rules w.name
      assembleWorkflow w.range w.name.text Xs) := by
  have built : w.items.mapM (workflowItem rules) = .ok Xs :=
    mapM_eq_ok.2 (items.imp fun x X given => Builder.gives_check given)
  rw [workflow, built]
  rfl

/-- The command is seen as the same elsewhere. -/
theorem command_elsewhere {c c' : Surface.Command} {C : Command}
    (elsewhere : Elsewhere Surface.Command.move c c') (given : (command rules c).Gives C) :
    ∃ C', (command rules c').Gives C' ∧ C'.view = C.view := by
  rcases elsewhere with rfl | ⟨f, rfl⟩
  · exact ⟨C, given, rfl⟩
  · obtain ⟨before, after, run⟩ := given
    obtain ⟨after', run'⟩ := command_carries rules c C before after before run
    exact ⟨_, ⟨before, after', run'⟩, C.view_move⟩

/-- Whether a name may be given depends on its text. -/
theorem checkName_text {w w' : Surface.Word} (same : w'.text = w.text)
    (free : checkName rules w = .ok ()) : checkName rules w' = .ok () := by
  unfold checkName at *
  rw [same]
  split at free
  · exact (violate_ne_ok.1 free).elim
  · rename_i unreserved
    rw [if_neg unreserved]

/-- The name is checked before the sections. -/
theorem checkName_bind_error {name : Surface.Word} {v : Violated} {c : Checked α}
    (failed : c = .error v) :
    (do checkName rules name; c) =
      .error (if rules.reserved.contains name.text then ⟨.reservedName name.text, name.range⟩
        else v) := by
  rw [checkName, failed]
  split <;> rfl

/-- A task whose parts are in another order is the same but for places. -/
theorem task_rearranged {t t' : Surface.Task} (order : t.Rearranged t') {T : Task}
    (given : (task rules t).Gives T) :
    ∃ T', (task rules t').Returns T' ∧ (Node.task T).same (.task T') = true := by
  obtain ⟨Bs, before, given⟩ := Builder.gives_bind given
  obtain ⟨C, built, given⟩ := Builder.gives_bind given
  obtain ⟨As, behind, given⟩ := Builder.gives_bind given
  obtain ⟨⟨⟩, free, given⟩ := Builder.gives_bind given
  have items : (taskBody rules).Builds t.items (Bs ++ As) :=
    List.rel_append (Builder.gives_each before) (Builder.gives_each behind)
  obtain ⟨nodup, view⟩ := assembleTask_eq_ok (Builder.gives_check given)
  obtain ⟨Ys, items', nodup', fields, others⟩ := items.rearranged order.items nodup
  have others : (othersOf Ys).map Decl.view = (othersOf (Bs ++ As)).map Decl.view := others
  obtain ⟨C', built', command⟩ := command_elsewhere order.command built
  obtain ⟨T', assembled⟩ := assembleTask_of_nodup t'.range t'.name.text C' nodup'
  refine ⟨T', ?_, ?_⟩
  · have ends := task_ends items' built'
    rwa [checkName_text order.name (Builder.gives_check free), assembled] at ends
  · refine View.same_iff.2 (congrArg View.normal ?_)
    show T.view = T'.view
    rw [view, (assembleTask_eq_ok assembled).2, order.name, others, command]
    simp only [taskView, fields]

/-- A task that repeats a kind of section is rejected in any order: for its name if that is
reserved, and else for the section. -/
theorem task_repeats {t t' : Surface.Task} (order : t.Rearranged t')
    (each : ∀ x ∈ t.items, ∃ X, (taskItem rules x).Gives X)
    (built : ∃ C, (command rules t.command).Gives C)
    (repeated : ¬ (t.items.filterMap Surface.TaskItem.kind?).Nodup) :
    ∃ x kind, FirstRepeat Surface.TaskItem.kind? t'.items x kind ∧
      (task rules t').Ends (.error
        (if rules.reserved.contains t'.name.text then
          ⟨.reservedName t'.name.text, t'.name.range⟩
        else ⟨.repeatedSection kind.name "task", x.range⟩)) := by
  obtain ⟨x, kind, first, Ys, items, failed⟩ :=
    (taskBody rules).repeats order.items each repeated "task"
  obtain ⟨C, built⟩ := built
  obtain ⟨C', built', -⟩ := command_elsewhere order.command built
  have unchecked : assembleTask t'.range t'.name.text Ys C' =
      .error ⟨.repeatedSection kind.name "task", x.range⟩ := by
    rw [assembleTask, failed]
    rfl
  have ends := task_ends items built'
  rw [checkName_bind_error unchecked] at ends
  exact ⟨x, kind, first, ends⟩

/-- A workflow whose sections are elsewhere among the elements of its body is the same but for
places. -/
theorem workflow_rearranged {w w' : Surface.Workflow} (order : w.Rearranged w') {W : Workflow}
    (given : workflow rules w = .ok W) :
    ∃ W', workflow rules w' = .ok W' ∧ (Node.workflow W).same (.workflow W') = true := by
  obtain ⟨Xs, built, given⟩ := bind_eq_ok.1 given
  obtain ⟨⟨⟩, free, given⟩ := bind_eq_ok.1 given
  have items : (workflowBody rules).Builds w.items Xs :=
    (mapM_eq_ok.1 built).imp fun x X eq => ⟨[], [], congrArg (·, []) eq⟩
  obtain ⟨nodup, view⟩ := assembleWorkflow_eq_ok given
  obtain ⟨Ys, items', nodup', fields, others⟩ := items.rearranged order.items nodup
  have others : (othersOf Ys).map WorkflowNode.view = (othersOf Xs).map WorkflowNode.view := others
  obtain ⟨W', assembled⟩ := assembleWorkflow_of_nodup w'.range w'.name.text nodup'
  refine ⟨W', ?_, ?_⟩
  · rw [workflow_ends items', checkName_text order.name free, assembled]
    rfl
  · refine View.same_iff.2 (congrArg View.normal ?_)
    show W.view = W'.view
    rw [view, (assembleWorkflow_eq_ok assembled).2, order.name, others]
    simp only [workflowView, fields]

/-- A workflow that repeats a kind of section is rejected in any order: for its name if that is
reserved, and else for the section. -/
theorem workflow_repeats {w w' : Surface.Workflow} (order : w.Rearranged w')
    (each : ∀ x ∈ w.items, ∃ X, workflowItem rules x = .ok X)
    (repeated : ¬ (w.items.filterMap Surface.WorkflowItem.kind?).Nodup) :
    ∃ x kind, FirstRepeat Surface.WorkflowItem.kind? w'.items x kind ∧
      workflow rules w' = .error
        (if rules.reserved.contains w'.name.text then
          ⟨.reservedName w'.name.text, w'.name.range⟩
        else ⟨.repeatedSection kind.name "workflow", x.range⟩) := by
  have each : ∀ x ∈ w.items, ∃ X, (check (workflowItem rules x)).Gives X := by
    intro x hx
    obtain ⟨X, eq⟩ := each x hx
    exact ⟨X, [], [], congrArg (·, []) eq⟩
  obtain ⟨x, kind, first, Ys, items, failed⟩ :=
    (workflowBody rules).repeats order.items each repeated "workflow"
  have unchecked : assembleWorkflow w'.range w'.name.text Ys =
      .error ⟨.repeatedSection kind.name "workflow", x.range⟩ := by
    rw [assembleWorkflow, failed]
    rfl
  refine ⟨x, kind, first, ?_⟩
  rw [workflow_ends items, checkName_bind_error unchecked]

/-- In which order the sections, the command and the private declarations of a task are written, or
the sections of a workflow among the elements of its body, makes no difference but in places, as
long as the declarations and the elements keep their order. If a kind of section is repeated among
items that are built, any such order is rejected: for the name of the task or workflow if that is
reserved, which is found out first, and else at the first item whose kind has occurred before it. -/
theorem sections_anywhere (rules : Rules) :
    (∀ t t' : Surface.Task, t.Rearranged t' →
      (∀ T, (task rules t).Gives T →
        ∃ T', (task rules t').Returns T' ∧ (Node.task T).same (.task T') = true) ∧
      ((∀ x ∈ t.items, ∃ X, (taskItem rules x).Gives X) →
        (∃ C, (command rules t.command).Gives C) →
        ¬ (t.items.filterMap Surface.TaskItem.kind?).Nodup →
        ∃ x kind, FirstRepeat Surface.TaskItem.kind? t'.items x kind ∧
          (task rules t').Ends (.error
            (if rules.reserved.contains t'.name.text then
              ⟨.reservedName t'.name.text, t'.name.range⟩
            else ⟨.repeatedSection kind.name "task", x.range⟩)))) ∧
    ∀ w w' : Surface.Workflow, w.Rearranged w' →
      (∀ W, workflow rules w = .ok W →
        ∃ W', workflow rules w' = .ok W' ∧ (Node.workflow W).same (.workflow W') = true) ∧
      ((∀ x ∈ w.items, ∃ X, workflowItem rules x = .ok X) →
        ¬ (w.items.filterMap Surface.WorkflowItem.kind?).Nodup →
        ∃ x kind, FirstRepeat Surface.WorkflowItem.kind? w'.items x kind ∧
          workflow rules w' = .error
            (if rules.reserved.contains w'.name.text then
              ⟨.reservedName w'.name.text, w'.name.range⟩
            else ⟨.repeatedSection kind.name "workflow", x.range⟩)) :=
  ⟨fun _ _ order => ⟨fun _ => task_rearranged order, task_repeats order⟩,
    fun _ _ order => ⟨fun _ => workflow_rearranged order, workflow_repeats order⟩⟩

/-- The declaration of an integer, written somewhere. -/
def integerAt (n : Nat) : Surface.Decl :=
  ⟨⟨n, n + 5⟩, .mk ⟨n, n + 3⟩ ⟨⟨n, n + 3⟩, "Int"⟩ [] none, ⟨⟨n + 4, n + 5⟩, "x"⟩, none⟩

/-- An empty input section, written somewhere. -/
def noInputsAt (n : Nat) : Surface.TaskItem := .inputs ⟨n, n + 8⟩ []

/-- A task of some items around an empty command. -/
def taskAround (before : List Surface.TaskItem) (n : Nat) (behind : List Surface.TaskItem) :
    Surface.Task :=
  ⟨⟨0, 36⟩, ⟨⟨5, 6⟩, "t"⟩, before, ⟨⟨n, n + 10⟩, .braces, []⟩, behind⟩

/-- The input section of a task can go behind its command, and a declaration in front of it. Where
there are two input sections, it is the last one that repeats the other. -/
theorem sections_anywhere_inputs :
    (∃ T T',
      (task ⟨.flat, [], .none⟩ (taskAround [noInputsAt 9, .decl (integerAt 18)] 24 [])).Gives T ∧
      (task ⟨.flat, [], .none⟩ (taskAround [.decl (integerAt 9)] 15 [noInputsAt 26])).Returns T' ∧
        (Node.task T).same (.task T') = true) ∧
    ∃ x kind, FirstRepeat Surface.TaskItem.kind? [noInputsAt 9, noInputsAt 28] x kind ∧
      (task ⟨.flat, [], .none⟩ (taskAround [noInputsAt 9] 18 [noInputsAt 28])).Ends
        (.error ⟨.repeatedSection kind.name "task", x.range⟩) := by
  constructor
  · have order : (taskAround [noInputsAt 9, .decl (integerAt 18)] 24 []).Rearranged
        (taskAround [.decl (integerAt 9)] 15 [noInputsAt 26]) :=
      ⟨rfl, .inr ⟨(· - 9), rfl⟩, [noInputsAt 26, .decl (integerAt 9)],
        .cons (.inr ⟨(· + 17), rfl⟩) (.cons (.inr ⟨(· - 9), rfl⟩) .nil), .swap _ _ [], rfl⟩
    obtain ⟨T, given⟩ : ∃ T, (task ⟨.flat, [], .none⟩
        (taskAround [noInputsAt 9, .decl (integerAt 18)] 24 [])).Gives T := ⟨_, [], [], rfl⟩
    obtain ⟨T', returned, same⟩ := ((sections_anywhere ⟨.flat, [], .none⟩).1 _ _ order).1 T given
    exact ⟨T, T', given, returned, same⟩
  · have order : (taskAround [noInputsAt 9, noInputsAt 18] 27 []).Rearranged
        (taskAround [noInputsAt 9] 18 [noInputsAt 28]) :=
      ⟨rfl, .inr ⟨(· - 9), rfl⟩, [noInputsAt 9, noInputsAt 28],
        .cons (.inl rfl) (.cons (.inr ⟨(· + 10), rfl⟩) .nil), .refl _, rfl⟩
    have built : ∀ x ∈ [noInputsAt 9, noInputsAt 18],
        ∃ X, (taskItem ⟨.flat, [], .none⟩ x).Gives X := by
      intro x hx
      rw [List.mem_pair] at hx
      rcases hx with rfl | rfl <;> exact ⟨_, [], [], rfl⟩
    exact ((sections_anywhere ⟨.flat, [], .none⟩).1 _ _ order).2 built ⟨_, [], [], rfl⟩ (by decide)

/-- A task of a reserved name is rejected for its name, though it has two input sections that are
built, and not for the second one of them. -/
theorem sections_repeated_reserved :
    let rules : Rules := ⟨.tree, reservedWords, .none⟩
    let t : Surface.Task :=
      { taskAround [noInputsAt 12, noInputsAt 21] 30 [] with name := ⟨⟨5, 9⟩, "left"⟩ }
    t.Rearranged t ∧ (∀ x ∈ t.items, ∃ X, (taskItem rules x).Gives X) ∧
      (∃ C, (command rules t.command).Gives C) ∧
      ¬ (t.items.filterMap Surface.TaskItem.kind?).Nodup ∧
      (task rules t).Ends (.error ⟨.reservedName "left", ⟨5, 9⟩⟩) ∧
      ¬ ∃ x kind, FirstRepeat Surface.TaskItem.kind? t.items x kind ∧
        (task rules t).Ends (.error ⟨.repeatedSection kind.name "task", x.range⟩) := by
  intro rules t
  have ends : (task rules t).Ends (.error ⟨.reservedName "left", ⟨5, 9⟩⟩) :=
    fun before => ⟨before, rfl⟩
  refine ⟨⟨rfl, .inl rfl, t.items, List.forall₂_same.2 fun _ _ => .inl rfl, .refl _, rfl⟩, ?_,
    ⟨_, [], [], rfl⟩, by decide, ends, ?_⟩
  · intro x hx
    rw [show t.items = [noInputsAt 12, noInputsAt 21] from rfl, List.mem_pair] at hx
    rcases hx with rfl | rfl <;> exact ⟨_, [], [], rfl⟩
  · rintro ⟨x, kind, -, other⟩
    obtain ⟨after, run⟩ := ends []
    obtain ⟨after', run'⟩ := other []
    rw [run] at run'
    cases run'

end Build

end Wdl
