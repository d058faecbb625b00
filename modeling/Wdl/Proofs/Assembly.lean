import Mathlib.Data.List.Flatten
import Mathlib.Data.List.Perm.Subperm
import Wdl.Ast.Node
import Wdl.Proofs.Outcomes

/-!
# Wdl.Proofs.Assembly -- what tasks, workflows and documents are put together from

Sorting the items of a task or workflow into its fields changes their order and may leave some out,
but adds none. So it is with the elements of a document. What is put together therefore has no
children but the nodes of its items, each at most as often as there. This is `List.Subperm`, which
goes through appending and composing and leaves order aside.

* `holes_strip` says that stripping the text of a command keeps its placeholders, in order, however
  lines are cut and put together again.
* `Section.nodes` and `Item.nodes` are the nodes of a section and of an item, and `fieldNodes` those
  of the sections that count. Of each kind the first one does (`fieldNodes_subperm`).
* `assembleTask_children`, `assembleWorkflow_children` and `assembleDocument_children` are the
  results, with the range that each is given.
-/

namespace Wdl.Build

variable {α β : Type}

/-! ## Entries

-/

/-- Entries that are distinct are all kept, in order. -/
theorem distinct_eq_ok {repeated : String → Violation} {done result : List (String × α)}
    {entries : List (String × α × Range)} (h : distinct repeated done entries = .ok result) :
    result = done ++ entries.map fun entry => (entry.1, entry.2.1) := by
  induction entries generalizing done with
  | nil =>
    cases h
    simp
  | cons entry entries ih =>
    obtain ⟨key, value, r⟩ := entry
    rw [distinct] at h
    split at h
    · exact (violate_ne_ok.1 h).elim
    · rw [ih h]
      simp

/-- Setting an entry adds its node, and may take the place of another. -/
theorem setEntry_subperm (key : String) (e : Expr) (done : List (String × Expr)) :
    (memberNodes (setEntry key e done)).Subperm (memberNodes done ++ [.expr e]) := by
  induction done with
  | nil => exact .refl _
  | cons entry done ih =>
    obtain ⟨k, v⟩ := entry
    rw [setEntry]
    split
    · have moved : (.expr e :: memberNodes done).Subperm (memberNodes done ++ [Node.expr e]) :=
        (List.perm_append_singleton _ _).symm.subperm
      have dropped : (memberNodes done ++ [Node.expr e]).Sublist
          (memberNodes ((k, v) :: done) ++ [Node.expr e]) := List.sublist_cons_self _ _
      exact moved.trans dropped.subperm
    · exact (List.subperm_cons (.expr v)).2 ih

/-- The last entry of each key counts, so there are no entries but those written. -/
theorem collectRuntime_subperm {done result : List (String × Expr)}
    {entries : List (Range × String × Expr)} (h : (collectRuntime done entries).Gives result) :
    (memberNodes result).Subperm (memberNodes done ++ entries.map fun x => .expr x.2.2) := by
  induction entries generalizing done with
  | nil =>
    cases Builder.gives_pure h
    rw [List.map_nil, List.append_nil]
  | cons entry entries ih =>
    obtain ⟨r, key, e⟩ := entry
    have rest : (collectRuntime (setEntry key e done) entries).Gives result := by
      rw [collectRuntime] at h
      split at h
      · obtain ⟨u, -, h⟩ := Builder.gives_bind h
        exact h
      · exact h
    refine (ih rest).trans ?_
    rw [List.map_cons, List.append_cons]
    exact (List.subperm_append_right _).2 (setEntry_subperm key e done)

/-! ## Commands

Text is cut at line feeds, which go to no line; placeholders are never cut. So each step of
stripping is compared by `holes`, which forgets the text. -/

/-- What stands in for text among pieces. -/
def holes (ps : List (Piece α)) : List α :=
  ps.filterMap fun p => match p with
    | .text _ => none
    | .hole x => some x

open Indentation in
/-- What goes in front of the first line goes in front of all. -/
theorem holes_onFirst (line : Line α) (ls : List (Line α)) :
    (onFirst line ls).flatMap holes = holes line ++ ls.flatMap holes := by
  cases ls <;> simp [onFirst, holes]

open Indentation in
/-- Cutting into lines keeps the placeholders. -/
theorem holes_lines (ps : List (Piece α)) : (lines ps).flatMap holes = holes ps := by
  induction ps with
  | nil => rfl
  | cons p ps ih =>
    cases p with
    | hole x =>
      rw [lines, holes_onFirst, ih]
      rfl
    | text cs =>
      simp only [lines]
      split
      · rw [holes_onFirst, ih]
        rfl
      · rename_i last middle _
        have none : ∀ ls : List (List Char),
            (ls.map fun cs => [Piece.text cs]).flatMap holes = ([] : List α) := by
          intro ls
          induction ls with
          | nil => rfl
          | cons l ls ih => exact ih
        rw [List.cons_append, List.flatMap_cons, List.flatMap_append, none, holes_onFirst, ih]
        rfl

open Indentation in
/-- A piece behind others adds its placeholder. -/
theorem holes_snoc (done : List (Piece α)) (p : Piece α) :
    holes (snoc done p) = holes done ++ holes [p] := by
  unfold snoc
  split
  · simp [holes]
  · simp [holes]
  · split
    · rename_i before last
      obtain ⟨front, rfl⟩ := List.getLast?_eq_some_iff.1 last
      simp [holes]
    · simp [holes]

open Indentation in
/-- Joining lines keeps the placeholders. -/
theorem holes_unlines (ls : List (Line α)) : holes (unlines ls) = ls.flatMap holes := by
  have folded : ∀ (ps done : List (Piece α)),
      holes (ps.foldl snoc done) = holes done ++ holes ps := by
    intro ps
    induction ps with
    | nil => simp [holes]
    | cons p ps ih =>
      intro done
      rw [List.foldl_cons, ih, holes_snoc, List.append_assoc]
      congr 1
      exact (List.filterMap_append (l := [p])).symm
  have pieces : holes (linePieces ls) = ls.flatMap holes := by
    induction ls using linePieces.induct with
    | case1 => rfl
    | case2 line => simp [linePieces]
    | case3 line more _ ih =>
      rw [linePieces, List.flatMap_cons, ← ih]
      · simp [holes]
      · assumption
  rw [unlines, folded, pieces]
  rfl

open Indentation in
/-- Taking away indentation keeps the placeholders. -/
theorem holes_dedent (n : Nat) (line : Line α) : holes (dedent n line) = holes line := by
  induction line generalizing n with
  | nil => rfl
  | cons p line ih =>
    cases p with
    | text cs => exact ih _
    | hole x => exact congrArg (x :: ·) (ih n)

open Indentation in
/-- A line that is blank has no placeholders. -/
theorem holes_of_isBlankLine {line : Line α} (blank : isBlankLine line = true) :
    holes line = [] := by
  have all : ∀ (line : Line α) before, indentAfter before line = none → holes line = [] := by
    intro line
    induction line with
    | nil => exact fun _ _ => rfl
    | cons p line ih =>
      intro before absent
      cases p with
      | hole x => cases absent
      | text cs =>
        rw [indentAfter] at absent
        split at absent
        · exact ih _ absent
        · cases absent
  exact all line [] (Option.isNone_iff_eq_none.1 blank)

open Indentation in
/-- Stripping a command changes its text and no placeholder. -/
theorem holes_strip (ps : List (Piece α)) : holes (strip ps).pieces = holes ps := by
  -- only lines that are blank are dropped, at either end
  have first : ∀ ls : List (Line α), (dropBlankFirst ls).flatMap holes = ls.flatMap holes := by
    intro ls
    unfold dropBlankFirst
    split
    · split
      · rename_i blank
        simp [holes_of_isBlankLine blank]
      · rfl
    · rfl
  have last : ∀ ls : List (Line α), (dropBlankLast ls).flatMap holes = ls.flatMap holes := by
    intro ls
    unfold dropBlankLast
    split
    · split
      · rename_i line last blank
        obtain ⟨front, rfl⟩ := List.getLast?_eq_some_iff.1 last
        simp [holes_of_isBlankLine blank]
      · rfl
    · rfl
  have body : (dropBlankLast (dropBlankFirst (lines ps))).flatMap holes = holes ps := by
    rw [last, first, holes_lines]
  simp only [strip]
  split
  · rw [holes_unlines]
    exact body
  · rw [holes_unlines, List.flatMap_map]
    have same : ∀ (n : Nat) (line : Line α),
        holes (if isBlankLine line then line else dedent n line) = holes line := by
      intro n line
      split
      · rfl
      · exact holes_dedent n line
    simp only [same]
    exact body

/-! ## Sections -/

/-- The nodes of a section. -/
def Section.nodes : Section → List Node
  | .inputs ds => declNodes ds
  | .outputs ds => declNodes ds
  | .metadata ms => metaNodes ms
  | .parameterMeta ms => metaNodes ms
  | .runtime es => memberNodes es

/-- The nodes of an item. -/
def Item.nodes (f : α → Node) : Item α → List Node
  | .block _ s => s.nodes
  | .other x => [f x]

/-- The nodes of the sections that count, by the fields they go to. -/
def fieldNodes (ss : List Section) : List Node :=
  declNodes (inputsOf ss) ++ (declNodes (outputsOf ss) ++ (memberNodes (runtimeOf ss) ++
    (metaNodes (metadataOf ss) ++ metaNodes (parameterMetaOf ss))))

/-- Of each kind of section, the first one counts. -/
theorem fieldNodes_subperm (ss : List Section) :
    (fieldNodes ss).Subperm (ss.flatMap Section.nodes) := by
  classical
  rw [List.subperm_ext_iff]
  rintro n -
  induction ss with
  | nil => exact Nat.le_refl _
  | cons s ss ih =>
    simp only [fieldNodes, List.count_append, List.flatMap_cons] at ih ⊢
    cases s <;> simp only [inputsOf, outputsOf, runtimeOf, metadataOf, parameterMetaOf,
      List.findSome?_cons, Option.getD_some, Section.nodes] at ih ⊢ <;> omega

/-- Items are sections and others. -/
theorem items_perm (f : α → Node) (items : List (Item α)) :
    ((othersOf items).map f ++ ((sectionsOf items).map Prod.snd).flatMap Section.nodes).Perm
      (items.flatMap (Item.nodes f)) := by
  induction items with
  | nil => exact .refl _
  | cons item items ih =>
    cases item with
    | block r s =>
      show ((othersOf items).map f ++ (s.nodes ++ _)).Perm (s.nodes ++ _)
      refine .trans ?_ (ih.append_left s.nodes)
      rw [← List.append_assoc, ← List.append_assoc]
      exact List.perm_append_comm.append_right _
    | other x => exact ih.cons (f x)

/-- The children of a task are its command and nodes of its items. -/
theorem assembleTask_children {r : Range} {name : String} {items : List (Item Decl)} {c : Command}
    {t : Task} (h : assembleTask r name items c = .ok t) :
    t.range = r ∧ t.children.Subperm (items.flatMap (Item.nodes Node.decl) ++ [.command c]) := by
  obtain ⟨-, -, h⟩ := bind_eq_ok.1 h
  cases h
  refine ⟨rfl, ?_⟩
  classical
  have fields := fieldNodes_subperm ((sectionsOf items).map Prod.snd)
  have all := items_perm Node.decl items
  rw [List.subperm_ext_iff]
  rintro n -
  have fewer := fields.count_le n
  have same := all.count_eq n
  simp only [fieldNodes, List.count_append] at fewer same
  simp only [Task.children, List.count_append, List.count_cons, List.count_nil, declNodes]
    at fewer ⊢
  omega

/-- The children of a workflow are nodes of its items. -/
theorem assembleWorkflow_children {r : Range} {name : String} {items : List (Item WorkflowNode)}
    {w : Workflow} (h : assembleWorkflow r name items = .ok w) :
    w.range = r ∧ w.children.Subperm (items.flatMap (Item.nodes WorkflowNode.node)) := by
  obtain ⟨-, -, h⟩ := bind_eq_ok.1 h
  cases h
  refine ⟨rfl, ?_⟩
  classical
  have fields := fieldNodes_subperm ((sectionsOf items).map Prod.snd)
  have all := items_perm WorkflowNode.node items
  rw [List.subperm_ext_iff]
  rintro n -
  have fewer := fields.count_le n
  have same := all.count_eq n
  simp only [fieldNodes, List.count_append] at fewer same
  simp only [Workflow.children, List.count_append] at fewer ⊢
  omega

/-- The node of an element, be it the version or another. -/
def TopLevel.node : TopLevel → Node
  | .version v => .version v
  | .element e => e.node

/-- The nodes that have been put together. -/
def Assembled.nodes (a : Assembled) : List Node :=
  (a.version.map Node.version).toList ++ a.body.map Element.node

theorem Assembled.add_nodes {a b : Assembled} {t : TopLevel} (h : a.add t = .ok b) :
    b.nodes.Perm (a.nodes ++ [t.node]) := by
  have put : ∀ e : Element, (a.nodes ++ [e.node]).Perm
      ((a.version.map Node.version).toList ++ (a.body ++ [e]).map Element.node) := by
    intro e
    simp [Assembled.nodes]
  unfold Assembled.add at h
  split at h
  · rename_i v
    split at h
    · cases h
    · rename_i none
      split at h
      · cases h
      · cases h
        have first : a.version = .none := by simpa using none
        simp only [Assembled.nodes, first]
        exact @List.perm_append_comm _ [Node.version v] _
  · split at h
    · cases h
    · cases h
      exact (put _).symm
  · cases h
    exact (put _).symm

theorem foldlM_add_nodes {items : List TopLevel} {a b : Assembled}
    (h : items.foldlM Assembled.add a = .ok b) :
    b.nodes.Perm (a.nodes ++ items.map TopLevel.node) := by
  induction items generalizing a with
  | nil =>
    cases h
    simp
  | cons item items ih =>
    rw [List.foldlM_cons] at h
    obtain ⟨c, hc, h⟩ := bind_eq_ok.1 h
    refine (ih h).trans ?_
    rw [List.map_cons, List.append_cons]
    exact (Assembled.add_nodes hc).append_right _

/-- The children of a document are the nodes of its elements. -/
theorem assembleDocument_children {source : SourceText} {items : List TopLevel} {d : Document}
    (h : assembleDocument source items = .ok d) :
    d.range = source.wholeRange ∧
      (Node.document d).children.Perm (items.map TopLevel.node) := by
  obtain ⟨a, ha, h⟩ := bind_eq_ok.1 h
  obtain ⟨v, hv, h⟩ := bind_eq_ok.1 h
  cases h
  refine ⟨rfl, ?_⟩
  have perm := foldlM_add_nodes ha
  unfold Assembled.requireVersion at hv
  split at hv
  · rename_i found
    cases hv
    simp only [Assembled.nodes, found] at perm
    exact perm
  · cases hv

end Wdl.Build
