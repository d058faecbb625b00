import Wdl.Proofs.Bindings
import Wdl.Proofs.Documents
import Wdl.Proofs.Lawful

/-!
# Wdl.Proofs.Guarantees -- what every document that parses keeps

The rules of `Node.Lawful` hold throughout every document that is returned, each for a reason of its
own. The version, the namespaces, the members of structs and the output declarations are checked;
private declarations and those in a workflow's body are bound by the grammar, which is a hypothesis
on the surface form here (`Surface.Element.Bound`); a type is marked optional once.

There is one lemma for each function of the builder: what it returns is lawful throughout,
`n.Everywhere (Node.Lawful rules)`, or so are all of several nodes, `LawfulNodes rules ns`. What is
put together from items that keep the rules keeps them, because by `Wdl.Proofs.Assembly` it has no
nodes but theirs. Besides the rules that a node keeps by itself, some are about the list that it is
in: `Section.Bound`, `WorkflowNode.Proper` and `Assembled.Single` carry these along.

`document_lawful` is the result, for either front end and whatever table of character names.
-/

namespace Wdl

variable {rules : Rules}

namespace Build

/-! ## Types and declarations -/

/-- A type without its mark is not optional. -/
theorem plainType_isOptional {whole inner : Range} {name : String} {ps : List Ty} {nonempty : Bool}
    {T : Ty} (h : plainType whole inner name ps nonempty = .ok T) : T.isOptional = false := by
  unfold plainType at h
  repeat' split at h
  all_goals first
    | exact (violate_ne_ok.1 h).elim
    | (cases h; rfl)

/-- A type without its mark keeps the rules if its parameters do. -/
theorem lawful_plainType {whole inner : Range} {name : String} {ps : List Ty} {nonempty : Bool}
    {T : Ty} (h : plainType whole inner name ps nonempty = .ok T)
    (below : LawfulNodes rules (ps.map .type)) : (Node.type T).Everywhere (Node.Lawful rules) := by
  obtain ⟨-, parameters⟩ := Parser.plainType_eq_ok h
  have plain := plainType_isOptional h
  refine .intro ?_ ?_
  · cases T <;> trivial
  · show LawfulNodes rules (T.parameters.map .type)
    rw [parameters]
    exact below

mutual

theorem lawful_type (rules : Rules) : (t : Surface.TypeExpr) → {T : Ty} → type t = .ok T →
    (Node.type T).Everywhere (Node.Lawful rules)
  | .mk whole name parameters quantifier, T, h => by
    obtain ⟨ps, hps, h⟩ := bind_eq_ok.1 (by simpa only [type] using h)
    have below := lawful_types rules parameters hps
    cases quantifier with
    | none => exact lawful_plainType h below
    | some q =>
      obtain ⟨plain, hplain, h⟩ := bind_eq_ok.1 h
      have inner := lawful_plainType hplain below
      split at h <;> cases h
      · exact .intro (plainType_isOptional hplain) (LawfulNodes.cons_iff.2 ⟨inner, .nil⟩)
      · exact inner

theorem lawful_types (rules : Rules) : (ts : List Surface.TypeExpr) → {Ts : List Ty} →
    types ts = .ok Ts → LawfulNodes rules (Ts.map .type)
  | [], Ts, h => by
    cases h
    exact .nil
  | t :: ts, Ts, h => by
    obtain ⟨T, hT, rest, hrest, rfl⟩ := by simpa [types] using h
    exact LawfulNodes.cons_iff.2 ⟨lawful_type rules t hT, lawful_types rules ts hrest⟩

end

/-- An initializer is built if one is written. -/
theorem initializer_isSome {e : Option Surface.Expr} {e' : Option Expr}
    (h : initializer rules e = .ok e') : e'.isSome = e.isSome := by
  cases e with
  | none => cases h; rfl
  | some σ =>
    obtain ⟨a, -, rfl⟩ := by simpa [initializer] using h
    rfl

/-- A declaration is bound if it is written with an initializer. -/
theorem decl_isSome {d : Surface.Decl} {D : Decl} (h : decl rules d = .ok D) :
    D.expr.isSome = d.expr.isSome := by
  obtain ⟨T, -, e, he, -, rfl⟩ := by simpa [decl] using h
  exact initializer_isSome he

theorem lawful_decl {d : Surface.Decl} {D : Decl} (h : decl rules d = .ok D) :
    (Node.decl D).Everywhere (Node.Lawful rules) := by
  obtain ⟨T, hT, e, he, -, rfl⟩ := by simpa [decl] using h
  refine .intro trivial (LawfulNodes.cons_iff.2 ⟨lawful_type rules d.type hT, ?_⟩)
  cases found : d.expr with
  | none =>
    rw [found] at he
    cases he
    exact .nil
  | some σ =>
    rw [found] at he
    obtain ⟨a, ha, rfl⟩ := by simpa [initializer] using he
    exact LawfulNodes.cons_iff.2 ⟨lawful_expr rules σ ha, .nil⟩

theorem lawful_decls {ds : List Surface.Decl} {Ds : List Decl} (h : ds.mapM (decl rules) = .ok Ds) :
    LawfulNodes rules (declNodes Ds) :=
  LawfulNodes.map_iff.2 (forall_of_forall₂ (mapM_eq_ok.1 h) fun _ _ _ => lawful_decl)

/-- The check passes for declarations that are bound. -/
theorem checkBound_eq_ok {D : Decl} : checkBound D = .ok () ↔ D.Bound := by
  rw [checkBound, Decl.Bound]
  cases D.expr <;> simp

/-- Output declarations are checked to be bound. -/
theorem outputs_bound {ds : List Surface.Decl} {Ds : List Decl} (h : outputs rules ds = .ok Ds) :
    ds.mapM (decl rules) = .ok Ds ∧ ∀ D ∈ Ds, D.Bound := by
  obtain ⟨built, hbuilt, h⟩ := bind_eq_ok.1 h
  obtain ⟨⟨⟩, checked, h⟩ := bind_eq_ok.1 h
  obtain rfl := pure_eq_ok.1 h
  exact ⟨hbuilt, fun D hD => checkBound_eq_ok.1 (forM_eq_ok.1 checked D hD)⟩

/-! ## Meta sections -/

theorem lawful_metaNumber {r : Range} {sign : Option Surface.Sign} {n : Surface.Number} {M : Meta}
    (h : metaNumber r sign n = .ok M) : (Node.metaValue M).Everywhere (Node.Lawful rules) := by
  obtain ⟨value, hvalue, h⟩ := bind_eq_ok.1 h
  have eq := pure_eq_ok.1 h
  subst eq
  have small : (if sign = some .minus then value.neg else value).Small := by
    split
    · exact (numberValue_small hvalue).neg
    · exact numberValue_small hvalue
  revert small
  cases (if sign = some .minus then value.neg else value) with
  | int value radix => exact fun small => .intro small LawfulNodes.nil
  | float value => exact fun _ => .intro trivial LawfulNodes.nil

mutual

theorem lawful_metaValue (rules : Rules) (N : CharacterNames) : (m : Surface.Meta) → {M : Meta} →
    metaValue N m = .ok M → (Node.metaValue M).Everywhere (Node.Lawful rules)
  | .null r, M, h => by
    cases h
    exact .intro trivial LawfulNodes.nil
  | .boolean r value, M, h => by
    cases h
    exact .intro trivial LawfulNodes.nil
  | .number r sign n, M, h => lawful_metaNumber h
  | .string q, M, h => by
    obtain ⟨text, -, rfl⟩ := by simpa [metaValue] using h
    exact .intro trivial LawfulNodes.nil
  | .array r items, M, h => by
    obtain ⟨Ms, hMs, rfl⟩ := by simpa [metaValue] using h
    exact .intro trivial (lawful_metaItems rules N items hMs)
  | .object r members, M, h => by
    obtain ⟨entries, hentries, distinct, hdistinct, rfl⟩ := by simpa [metaValue] using h
    refine .intro trivial ?_
    show LawfulNodes rules (metaNodes distinct)
    rw [Parser.metaNodes_distinct hdistinct]
    exact lawful_metaEntries rules N members hentries

theorem lawful_metaItems (rules : Rules) (N : CharacterNames) : (ms : List Surface.Meta) →
    {Ms : List Meta} → metaItems N ms = .ok Ms → LawfulNodes rules (Ms.map .metaValue)
  | [], Ms, h => by
    cases h
    exact .nil
  | m :: ms, Ms, h => by
    obtain ⟨M, hM, rest, hrest, rfl⟩ := by simpa [metaItems] using h
    exact LawfulNodes.cons_iff.2 ⟨lawful_metaValue rules N m hM, lawful_metaItems rules N ms hrest⟩

theorem lawful_metaEntries (rules : Rules) (N : CharacterNames) :
    (ms : List (Surface.Word × Range × Surface.Meta)) →
    {es : List (String × Meta × Range)} → metaEntries N ms = .ok es →
    LawfulNodes rules (es.map fun e => .metaValue e.2.1)
  | [], es, h => by
    cases h
    exact .nil
  | (key, r, m) :: ms, es, h => by
    obtain ⟨M, hM, rest, hrest, rfl⟩ := by simpa [metaEntries] using h
    exact LawfulNodes.cons_iff.2
      ⟨lawful_metaValue rules N m hM, lawful_metaEntries rules N ms hrest⟩

end

theorem lawful_metaSection {N : CharacterNames} {s : Surface.MetaSection} {S : Section}
    (h : metaSection N s = .ok S) : LawfulNodes rules S.nodes := by
  obtain ⟨entries, hentries, distinct, hdistinct, h⟩ := by
    simpa only [metaSection, bind_eq_ok] using h
  have all : LawfulNodes rules (metaNodes distinct) := by
    rw [Parser.metaNodes_distinct hdistinct]
    exact lawful_metaEntries rules N _ hentries
  cases kind : s.kind <;> rw [kind] at h <;> cases h <;> exact all

/-! ## Sections -/

/-- The declarations of an output section are bound. -/
def Section.Bound : Section → Prop
  | .outputs ds => ∀ d ∈ ds, d.Bound
  | _ => True

/-- Outputs are bound, and what is no section is as it should be. -/
def Item.Bound {α : Type} (proper : α → Prop) : Item α → Prop
  | .block _ s => s.Bound
  | .other x => proper x

/-- Meta sections have no declarations. -/
theorem metaSection_bound {N : CharacterNames} {s : Surface.MetaSection} {S : Section}
    (h : metaSection N s = .ok S) : S.Bound := by
  obtain ⟨entries, -, distinct, -, h⟩ := by simpa only [metaSection, bind_eq_ok] using h
  cases kind : s.kind <;> rw [kind] at h <;> cases h <;> trivial

/-- The output section that counts is one of those written. -/
theorem outputsOf_bound {ss : List Section} (h : ∀ s ∈ ss, s.Bound) :
    ∀ d ∈ outputsOf ss, d.Bound := by
  induction ss with
  | nil => simp [outputsOf]
  | cons s ss ih =>
    obtain ⟨first, rest⟩ := List.forall_mem_cons.1 h
    cases s with
    | outputs ds => exact first
    | _ => exact ih rest

section Items

variable {α : Type} {proper : α → Prop} {items : List (Item α)} (h : ∀ i ∈ items, i.Bound proper)

include h

/-- The sections among some items have bound outputs. -/
theorem sections_bound : ∀ s ∈ (sectionsOf items).map Prod.snd, s.Bound := by
  induction items with
  | nil => simp [sectionsOf]
  | cons i items ih =>
    obtain ⟨first, rest⟩ := List.forall_mem_cons.1 h
    cases i with
    | block r s => exact List.forall_mem_cons.2 ⟨first, ih rest⟩
    | other x => exact ih rest

/-- What is no section among some items is as it should be. -/
theorem others_proper : ∀ x ∈ othersOf items, proper x := by
  induction items with
  | nil => simp [othersOf]
  | cons i items ih =>
    obtain ⟨first, rest⟩ := List.forall_mem_cons.1 h
    cases i with
    | block r s => exact ih rest
    | other x => exact List.forall_mem_cons.2 ⟨first, ih rest⟩

end Items

/-- The items of a task or workflow are built from items that the grammar binds. -/
structure Item.Lawful {α : Type} (rules : Rules) (f : α → Node) (proper : α → Prop) (i : Item α) :
    Prop where
  nodes : LawfulNodes rules (i.nodes f)
  bound : i.Bound proper

/-! ## Tasks

Items are built one by one and then sorted. A runtime section keeps the last entry under each key
only, so its nodes are some of those written. -/

theorem lawful_runtimeEntries {es : List Surface.RuntimeEntry}
    {entries : List (Range × String × Expr)} (h : es.mapM (runtimeEntry rules) = .ok entries) :
    LawfulNodes rules (entries.map fun x => .expr x.2.2) := by
  refine LawfulNodes.map_iff.2 (forall_of_forall₂ (mapM_eq_ok.1 h) ?_)
  intro entry _ built h
  obtain ⟨e, he, rfl⟩ := by simpa [runtimeEntry] using h
  exact lawful_expr rules _ he

theorem lawful_taskItem {i : Surface.TaskItem} {I : Item Decl} (bound : i.Bound)
    (h : (taskItem rules i).Gives I) : I.Lawful rules Node.decl Decl.Bound := by
  cases i with
  | inputs r ds =>
    obtain ⟨Ds, hDs, h⟩ := Builder.gives_bind h
    cases Builder.gives_pure h
    exact ⟨lawful_decls (Builder.gives_check hDs), trivial⟩
  | outputs r ds =>
    obtain ⟨Ds, hDs, h⟩ := Builder.gives_bind h
    cases Builder.gives_pure h
    obtain ⟨built, bound⟩ := outputs_bound (Builder.gives_check hDs)
    exact ⟨lawful_decls built, bound⟩
  | metadata s =>
    obtain ⟨S, hS, h⟩ := Builder.gives_bind h
    cases Builder.gives_pure h
    have hS := Builder.gives_check hS
    exact ⟨lawful_metaSection hS, metaSection_bound hS⟩
  | runtime r es =>
    obtain ⟨entries, hentries, h⟩ := Builder.gives_bind h
    obtain ⟨runtime, hruntime, h⟩ := Builder.gives_bind h
    cases Builder.gives_pure h
    have all := lawful_runtimeEntries (Builder.gives_check hentries)
    exact ⟨all.subset (collectRuntime_subperm hruntime).subset, trivial⟩
  | decl d =>
    obtain ⟨D, hD, h⟩ := Builder.gives_bind h
    cases Builder.gives_pure h
    have hD := Builder.gives_check hD
    refine ⟨LawfulNodes.cons_iff.2 ⟨lawful_decl hD, .nil⟩, ?_⟩
    exact (decl_isSome hD).trans bound

theorem lawful_taskItems {is : List Surface.TaskItem} {Is : List (Item Decl)}
    (bound : ∀ i ∈ is, i.Bound) (h : (each (taskItem rules) is).Gives Is) :
    ∀ I ∈ Is, I.Lawful rules Node.decl Decl.Bound :=
  forall_of_forall₂ (Builder.gives_each h) fun i hi _ => lawful_taskItem (bound i hi)

theorem lawful_command {c : Surface.Command} {C : Command} (h : (command rules c).Gives C) :
    (Node.command C).Everywhere (Node.Lawful rules) := by
  obtain ⟨-, raw, hraw, fewer⟩ := Parser.command_holes h
  exact .intro trivial ((lawful_rawParts rules _ hraw).subset fewer.subset)

theorem lawful_flatMap {α : Type} {f : α → Node} {proper : α → Prop} {items : List (Item α)}
    (h : ∀ i ∈ items, i.Lawful rules f proper) :
    LawfulNodes rules (items.flatMap (Item.nodes f)) := by
  intro n hn
  obtain ⟨i, hi, hn⟩ := List.mem_flatMap.1 hn
  exact (h i hi).nodes n hn

theorem lawful_task {t : Surface.Task} {T : Task} (bound : ∀ i ∈ t.before ++ t.behind, i.Bound)
    (h : (task rules t).Gives T) : (Node.task T).Everywhere (Node.Lawful rules) := by
  obtain ⟨before, hbefore, h⟩ := Builder.gives_bind h
  obtain ⟨c, hc, h⟩ := Builder.gives_bind h
  obtain ⟨behind, hbehind, h⟩ := Builder.gives_bind h
  obtain ⟨⟨⟩, -, h⟩ := Builder.gives_bind h
  have assembled := Builder.gives_check h
  obtain ⟨bound, bound'⟩ := List.forall_mem_append.1 bound
  have items : ∀ I ∈ before ++ behind, I.Lawful rules Node.decl Decl.Bound :=
    List.forall_mem_append.2 ⟨lawful_taskItems bound hbefore, lawful_taskItems bound' hbehind⟩
  obtain ⟨-, children⟩ := assembleTask_children assembled
  have below : LawfulNodes rules T.children :=
    (LawfulNodes.append_iff.2 ⟨lawful_flatMap items,
      LawfulNodes.cons_iff.2 ⟨lawful_command hc, .nil⟩⟩).subset children.subset
  refine .intro ?_ below
  obtain ⟨-, -, assembled⟩ := bind_eq_ok.1 assembled
  cases assembled
  have proper : ∀ I ∈ before ++ behind, I.Bound Decl.Bound := fun I hI => (items I hI).bound
  exact ⟨others_proper proper, outputsOf_bound (sections_bound proper)⟩

/-! ## Workflows -/

theorem lawful_callInput {i : Surface.CallInput} {input : String × Expr}
    (h : callInput rules i = .ok input) : (Node.expr input.2).Everywhere (Node.Lawful rules) := by
  obtain ⟨e, he, -, rfl⟩ := by simpa [callInput] using h
  cases found : i.expr with
  | none =>
    rw [found] at he
    cases he
    exact .intro trivial LawfulNodes.nil
  | some σ =>
    rw [found] at he
    obtain ⟨a, ha, rfl⟩ := by simpa [initializer] using he
    exact lawful_expr rules σ ha

theorem lawful_call {c : Surface.Call} {C : Call} (h : call rules c = .ok C) :
    (Node.call C).Everywhere (Node.Lawful rules) := by
  obtain ⟨inputs, hinputs, h⟩ := bind_eq_ok.1 h
  obtain ⟨⟨⟩, -, h⟩ := bind_eq_ok.1 h
  obtain rfl := pure_eq_ok.1 h
  exact .intro trivial (LawfulNodes.map_iff.2
    (forall_of_forall₂ (mapM_eq_ok.1 hinputs) fun _ _ _ => lawful_callInput))

mutual

/-- The rules hold throughout what is built from an element of a workflow's body. -/
theorem lawful_workflowNode (rules : Rules) : (n : Surface.WorkflowNode) → n.Bound →
    {N : WorkflowNode} → workflowNode rules n = .ok N →
    N.node.Everywhere (Node.Lawful rules) ∧ N.Proper
  | .decl d, bound, N, h => by
    obtain ⟨D, hD, rfl⟩ := by simpa [workflowNode] using h
    cases bound with
    | decl bound => exact ⟨lawful_decl hD, (decl_isSome hD).trans bound⟩
  | .call c, bound, N, h => by
    obtain ⟨C, hC, rfl⟩ := by simpa [workflowNode] using h
    exact ⟨lawful_call hC, trivial⟩
  | .scatter r item σ body, bound, N, h => by
    obtain ⟨e, he, nodes, hnodes, -, rfl⟩ := by simpa [workflowNode] using h
    cases bound with
    | scatter bound =>
      obtain ⟨below, proper⟩ := lawful_workflowNodes rules body bound hnodes
      exact ⟨.intro proper (LawfulNodes.cons_iff.2 ⟨lawful_expr rules σ he, below⟩), trivial⟩
  | .conditional r σ body, bound, N, h => by
    obtain ⟨e, he, nodes, hnodes, rfl⟩ := by simpa [workflowNode] using h
    cases bound with
    | conditional bound =>
      obtain ⟨below, proper⟩ := lawful_workflowNodes rules body bound hnodes
      exact ⟨.intro proper (LawfulNodes.cons_iff.2 ⟨lawful_expr rules σ he, below⟩), trivial⟩

theorem lawful_workflowNodes (rules : Rules) : (ns : List Surface.WorkflowNode) →
    (∀ n ∈ ns, n.Bound) → {Ns : List WorkflowNode} → workflowNodes rules ns = .ok Ns →
    LawfulNodes rules (Ns.map WorkflowNode.node) ∧ ∀ N ∈ Ns, N.Proper
  | [], _, Ns, h => by
    cases h
    exact ⟨.nil, by simp⟩
  | n :: ns, bound, Ns, h => by
    obtain ⟨N, hN, rest, hrest, rfl⟩ := by simpa [workflowNodes] using h
    obtain ⟨here, others⟩ := List.forall_mem_cons.1 bound
    obtain ⟨first, proper⟩ := lawful_workflowNode rules n here hN
    obtain ⟨below, propers⟩ := lawful_workflowNodes rules ns others hrest
    exact ⟨LawfulNodes.cons_iff.2 ⟨first, below⟩, List.forall_mem_cons.2 ⟨proper, propers⟩⟩

end

theorem lawful_workflowItem {i : Surface.WorkflowItem} {I : Item WorkflowNode} (bound : i.Bound)
    (h : workflowItem rules i = .ok I) : I.Lawful rules WorkflowNode.node WorkflowNode.Proper := by
  cases i with
  | inputs r ds =>
    obtain ⟨Ds, hDs, h⟩ := bind_eq_ok.1 h
    obtain rfl := pure_eq_ok.1 h
    exact ⟨lawful_decls hDs, trivial⟩
  | outputs r ds =>
    obtain ⟨Ds, hDs, h⟩ := bind_eq_ok.1 h
    obtain rfl := pure_eq_ok.1 h
    obtain ⟨built, bound⟩ := outputs_bound hDs
    exact ⟨lawful_decls built, bound⟩
  | metadata s =>
    obtain ⟨S, hS, h⟩ := bind_eq_ok.1 h
    obtain rfl := pure_eq_ok.1 h
    exact ⟨lawful_metaSection hS, metaSection_bound hS⟩
  | node n =>
    obtain ⟨N, hN, h⟩ := bind_eq_ok.1 h
    obtain rfl := pure_eq_ok.1 h
    obtain ⟨lawful, proper⟩ := lawful_workflowNode rules n bound hN
    exact ⟨LawfulNodes.cons_iff.2 ⟨lawful, .nil⟩, proper⟩

theorem lawful_workflow {w : Surface.Workflow} {W : Workflow} (bound : ∀ i ∈ w.items, i.Bound)
    (h : workflow rules w = .ok W) : (Node.workflow W).Everywhere (Node.Lawful rules) := by
  obtain ⟨items, hitems, h⟩ := bind_eq_ok.1 h
  obtain ⟨⟨⟩, -, assembled⟩ := bind_eq_ok.1 h
  have lawful : ∀ I ∈ items, I.Lawful rules WorkflowNode.node WorkflowNode.Proper :=
    forall_of_forall₂ (mapM_eq_ok.1 hitems) fun i hi _ => lawful_workflowItem (bound i hi)
  obtain ⟨-, children⟩ := assembleWorkflow_children assembled
  refine .intro ?_ ((lawful_flatMap lawful).subset children.subset)
  obtain ⟨-, -, assembled⟩ := bind_eq_ok.1 assembled
  cases assembled
  have proper : ∀ I ∈ items, I.Bound WorkflowNode.Proper := fun I hI => (lawful I hI).bound
  exact ⟨others_proper proper, outputsOf_bound (sections_bound proper)⟩

/-! ## Imports and structs -/

theorem lawful_importDoc {i : Surface.Import} {I : Import} (h : importDoc rules i = .ok I) :
    (Node.importDoc I).Everywhere (Node.Lawful rules) := by
  obtain ⟨uri, -, h⟩ := bind_eq_ok.1 h
  obtain ⟨aliases, -, h⟩ := bind_eq_ok.1 h
  dsimp only at h
  split at h
  · exact (violate_ne_ok.1 h).elim
  · rename_i named
    obtain ⟨distinct, -, h⟩ := bind_eq_ok.1 h
    obtain rfl := pure_eq_ok.1 h
    refine .intro ?_ LawfulNodes.nil
    simpa [Node.Lawful] using named

/-- Members that are checked have names that differ from each other and from those seen. -/
theorem checkMembers_nodup {struct : String} {seen : List String} {ds : List Decl}
    (h : checkMembers struct seen ds = .ok ()) :
    (ds.map Decl.name).Nodup ∧ ∀ d ∈ ds, d.name ∉ seen := by
  induction ds generalizing seen with
  | nil => simp
  | cons d ds ih =>
    rw [checkMembers] at h
    split at h
    · exact (violate_ne_ok.1 h).elim
    · rename_i new
      obtain ⟨nodup, others⟩ := ih h
      have apart : ∀ d' ∈ ds, d'.name ≠ d.name ∧ d'.name ∉ seen := by simpa using others
      refine ⟨?_, List.forall_mem_cons.2 ⟨by simpa using new, fun d' hd' => (apart d' hd').2⟩⟩
      rw [List.map_cons, List.nodup_cons]
      refine ⟨?_, nodup⟩
      intro mem
      obtain ⟨d', hd', same⟩ := List.mem_map.1 mem
      exact (apart d' hd').1 same

theorem lawful_structDef {s : Surface.StructDef} {S : StructDef}
    (unbound : ∀ d ∈ s.members, d.expr = none) (h : structDef rules s = .ok S) :
    (Node.structDef S).Everywhere (Node.Lawful rules) := by
  obtain ⟨members, hmembers, h⟩ := bind_eq_ok.1 h
  obtain ⟨⟨⟩, -, h⟩ := bind_eq_ok.1 h
  obtain ⟨⟨⟩, checked, h⟩ := bind_eq_ok.1 h
  obtain rfl := pure_eq_ok.1 h
  refine .intro ⟨?_, (checkMembers_nodup checked).1⟩ (lawful_decls hmembers)
  refine forall_of_forall₂ (mapM_eq_ok.1 hmembers) fun d hd D built => ?_
  have same := decl_isSome built
  rw [unbound d hd] at same
  simpa using same

/-! ## Documents

The number of workflows is the one rule that is about a whole document. Adding elements notes
whether there was one, so the invariant is that what is noted is right. -/

/-- Elements are put together to a body with at most one workflow; it is noted if there is one. -/
def Assembled.Single (a : Assembled) : Prop :=
  a.body.countP Element.isWorkflow = if a.hasWorkflow then 1 else 0

theorem Assembled.Single.add {a b : Assembled} (single : a.Single) {item : TopLevel}
    (h : a.add item = .ok b) : b.Single := by
  unfold Assembled.Single at *
  unfold Assembled.add at h
  split at h
  · split at h
    · cases h
    · split at h
      · cases h
      · cases h
        exact single
  · split at h
    · cases h
    · rename_i none
      cases h
      simp_all [Element.isWorkflow]
  · rename_i e other
    cases h
    have plain : e.isWorkflow = false := by
      cases e with
      | workflow w => exact (other w rfl).elim
      | _ => rfl
    simp [single, plain]

/-- Adding elements one after the other leaves at most one workflow. -/
theorem foldlM_add_single {items : List TopLevel} {a b : Assembled} (single : a.Single)
    (h : items.foldlM Assembled.add a = .ok b) : b.Single := by
  induction items generalizing a with
  | nil =>
    cases h
    exact single
  | cons item items ih =>
    rw [List.foldlM_cons] at h
    obtain ⟨c, hc, h⟩ := bind_eq_ok.1 h
    exact ih (single.add hc) h

theorem lawful_element {e : Surface.Element} {E : TopLevel} (bound : e.Bound)
    (h : (element rules e).Gives E) : E.node.Everywhere (Node.Lawful rules) := by
  cases e with
  | version r w =>
    obtain ⟨v, hv, h⟩ := Builder.gives_bind h
    cases Builder.gives_pure h
    have hv := Builder.gives_check hv
    refine .intro ?_ LawfulNodes.nil
    rw [version] at hv
    split at hv
    · rename_i known
      cases hv
      exact List.contains_iff_mem.1 known
    · exact (violate_ne_ok.1 hv).elim
  | importDoc i =>
    obtain ⟨I, hI, h⟩ := Builder.gives_bind h
    cases Builder.gives_pure h
    exact lawful_importDoc (Builder.gives_check hI)
  | struct s =>
    obtain ⟨S, hS, h⟩ := Builder.gives_bind h
    cases Builder.gives_pure h
    exact lawful_structDef bound (Builder.gives_check hS)
  | task t =>
    obtain ⟨T, hT, h⟩ := Builder.gives_bind h
    cases Builder.gives_pure h
    exact lawful_task bound hT
  | workflow w =>
    obtain ⟨W, hW, h⟩ := Builder.gives_bind h
    cases Builder.gives_pure h
    exact lawful_workflow bound (Builder.gives_check hW)

theorem lawful_document {source : SourceText} {d : Surface.Document} {D : Document}
    (bound : ∀ e ∈ d.elements, e.Bound) (h : (document rules source d).Gives D) :
    (Node.document D).Everywhere (Node.Lawful rules) := by
  obtain ⟨items, hitems, h⟩ := Builder.gives_bind h
  have assembled := Builder.gives_check h
  have all : LawfulNodes rules (items.map TopLevel.node) :=
    LawfulNodes.map_iff.2 (forall_of_forall₂ (Builder.gives_each hitems)
      fun e he _ => lawful_element (bound e he))
  obtain ⟨-, children⟩ := assembleDocument_children assembled
  refine .intro ?_ (all.subset children.subset)
  obtain ⟨a, ha, assembled⟩ := bind_eq_ok.1 assembled
  obtain ⟨v, -, assembled⟩ := bind_eq_ok.1 assembled
  cases assembled
  have single : a.Single := foldlM_add_single (a := ⟨none, false, []⟩) rfl ha
  show a.body.countP Element.isWorkflow ≤ 1
  rw [single]
  split <;> omega

end Build

/-- The rules hold throughout every document that is returned. -/
theorem document_lawful {source : SourceText} {d : Document}
    (h : (parseDocument rules source).result = .ok d) :
    (Node.document d).Everywhere (Node.Lawful rules) := by
  obtain ⟨σ, parsed, built⟩ := Parsed.ofSurface_eq_ok h
  obtain ⟨ahead, cursor, s, -, read, -⟩ := Parser.whole_eq_ok.1 parsed
  exact Build.lawful_document (Parser.document_bound _ _ _ read) built

/-- A scatter section holds a bound declaration, and the sign before its number is gone. -/
theorem document_lawful_scatter :
    let source : SourceText :=
      { chars := "version 1.1 workflow w { scatter (i in [-1]) { Int? x = +2 } }".toList
        uri := ""
        abspath := "" }
    ∃ d, (parseDocument ⟨.tree, reservedWords, .none⟩ source).result = .ok d ∧
      (Node.descendant? [1, 0, 1] (.document d)).map Node.range = some ⟨47, 58⟩ ∧
      (Node.document d).Everywhere (Node.Lawful ⟨.tree, reservedWords, .none⟩) := by
  intro source
  have found : ((parseDocument ⟨.tree, reservedWords, .none⟩ source).result.toOption.bind fun d =>
      (Node.descendant? [1, 0, 1] (.document d)).map Node.range) = some ⟨47, 58⟩ := by
    decide +kernel
  obtain ⟨d, parsed, shown⟩ := Option.bind_eq_some_iff.1 found
  exact ⟨d, toOption_eq_some.1 parsed, shown, document_lawful (toOption_eq_some.1 parsed)⟩

end Wdl
