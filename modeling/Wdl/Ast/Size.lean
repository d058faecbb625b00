import Wdl.Ast.Node

/-!
# Wdl.Ast.Size -- children are smaller

A child of a node is smaller than the node, in the measure that counts constructors. So recursion
over the nodes of a document ends.
-/

namespace Wdl

theorem sizeOf_range_pos (r : Range) : 0 < sizeOf r := by
  obtain ⟨start, stop⟩ := r
  simp only [Range.mk.sizeOf_spec]
  omega

theorem sizeOf_workflowNode_node (n : WorkflowNode) : sizeOf n.node ≤ sizeOf n := by
  cases n <;> simp [WorkflowNode.node]

theorem sizeOf_element_node (e : Element) : sizeOf e.node ≤ sizeOf e := by
  cases e <;> simp [Element.node]

theorem sizeOf_declNodes {c : Node} {ds : List Decl} (h : c ∈ declNodes ds) :
    sizeOf c < sizeOf ds + 1 := by
  obtain ⟨d, hd, rfl⟩ := List.mem_map.1 h
  have := List.sizeOf_lt_of_mem hd
  simp; omega

theorem sizeOf_partNodes {c : Node} {ps : List Part} (h : c ∈ partNodes ps) :
    sizeOf c < sizeOf ps + 1 := by
  obtain ⟨p, hp, rfl⟩ := List.mem_map.1 h
  obtain ⟨part, hpart, heq⟩ := List.mem_filterMap.1 hp
  cases part with
  | text _ => cases heq
  | placeholder q =>
    cases heq
    have := List.sizeOf_lt_of_mem hpart
    simp at this ⊢; omega

theorem sizeOf_metaNodes {c : Node} {ms : List (String × Meta)} (h : c ∈ metaNodes ms) :
    sizeOf c < sizeOf ms + 1 := by
  obtain ⟨⟨k, m⟩, hm, rfl⟩ := List.mem_map.1 h
  have := List.sizeOf_lt_of_mem hm
  simp at this ⊢; omega

theorem sizeOf_memberNodes {κ : Type} [SizeOf κ] {c : Node} {ms : List (κ × Expr)}
    (h : c ∈ memberNodes ms) :
    sizeOf c < sizeOf ms + 1 := by
  obtain ⟨⟨k, e⟩, he, rfl⟩ := List.mem_map.1 h
  have := List.sizeOf_lt_of_mem he
  simp at this ⊢; omega

theorem sizeOf_bodyNodes {c : Node} {ns : List WorkflowNode}
    (h : c ∈ ns.map WorkflowNode.node) : sizeOf c < sizeOf ns := by
  obtain ⟨n, hn, rfl⟩ := List.mem_map.1 h
  have := List.sizeOf_lt_of_mem hn
  have := sizeOf_workflowNode_node n
  omega

theorem Expr.sizeOf_child {c : Node} {e : Expr} (h : c ∈ e.children) : sizeOf c < sizeOf e + 1 := by
  cases e with
  | boolean _ _ | int _ _ _ | float _ _ | null _ | ident _ _ => cases h
  | string r ps => have := sizeOf_partNodes h; simp; omega
  | array r es =>
    obtain ⟨e, he, rfl⟩ := List.mem_map.1 h
    have := List.sizeOf_lt_of_mem he
    simp; omega
  | map r es =>
    obtain ⟨⟨k, v⟩, hkv, hc⟩ := List.mem_flatMap.1 h
    have := List.sizeOf_lt_of_mem hkv
    simp at hc this
    rcases hc with rfl | rfl <;> simp <;> omega
  | struct r ms t => have := sizeOf_memberNodes h; simp; omega
  | apply r f es =>
    obtain ⟨e, he, rfl⟩ := List.mem_map.1 h
    have := List.sizeOf_lt_of_mem he
    simp; omega
  | get r e m => simp [Expr.children] at h; subst h; simp; omega
  | unary r op e => simp [Expr.children] at h; subst h; simp; omega
  | pair r a b => simp [Expr.children] at h; rcases h with rfl | rfl <;> simp <;> omega
  | index r a b => simp [Expr.children] at h; rcases h with rfl | rfl <;> simp <;> omega
  | binary r op a b => simp [Expr.children] at h; rcases h with rfl | rfl <;> simp <;> omega
  | ifThenElse r a b c =>
    simp [Expr.children] at h
    rcases h with rfl | rfl | rfl <;> simp <;> omega

theorem Meta.sizeOf_child {c : Node} {m : Meta} (h : c ∈ m.children) : sizeOf c < sizeOf m + 1 := by
  cases m with
  | null _ | boolean _ _ | int _ _ _ | float _ _ | string _ _ => cases h
  | array r ms =>
    obtain ⟨m, hm, rfl⟩ := List.mem_map.1 h
    have := List.sizeOf_lt_of_mem hm
    simp; omega
  | object r ms => have := sizeOf_metaNodes h; simp; omega

theorem Task.sizeOf_child {c : Node} {t : Task} (h : c ∈ t.children) : sizeOf c < sizeOf t + 1 := by
  obtain ⟨r, name, inputs, post, command, outputs, pm, rt, md⟩ := t
  simp only [Task.children, List.mem_append, List.mem_cons] at h
  rcases h with (((((h | h) | rfl | h) | h) | h) | h)
  · have := sizeOf_declNodes h; simp; omega
  · have := sizeOf_declNodes h; simp; omega
  · simp; omega
  · have := sizeOf_declNodes h; simp; omega
  · have := sizeOf_memberNodes h; simp; omega
  · have := sizeOf_metaNodes h; simp; omega
  · have := sizeOf_metaNodes h; simp; omega

theorem Workflow.sizeOf_child {c : Node} {w : Workflow} (h : c ∈ w.children) :
    sizeOf c < sizeOf w + 1 := by
  obtain ⟨r, name, inputs, body, outputs, pm, md⟩ := w
  simp only [Workflow.children, List.mem_append] at h
  rcases h with (((h | h) | h) | h) | h
  · have := sizeOf_declNodes h; simp; omega
  · have := sizeOf_bodyNodes h; simp; omega
  · have := sizeOf_declNodes h; simp; omega
  · have := sizeOf_metaNodes h; simp; omega
  · have := sizeOf_metaNodes h; simp; omega

theorem Decl.sizeOf_child {c : Node} {d : Decl} (h : c ∈ d.children) : sizeOf c < sizeOf d + 1 := by
  obtain ⟨r, type, name, e⟩ := d
  cases e with
  | none => simp [Decl.children] at h; subst h; simp; omega
  | some e => simp [Decl.children] at h; rcases h with rfl | rfl <;> simp <;> omega

/-- A child is smaller than its parent. -/
theorem Node.sizeOf_child {c n : Node} (h : c ∈ n.children) : sizeOf c < sizeOf n := by
  cases n with
  | version v => cases h
  | importDoc i => cases h
  | document d =>
    obtain ⟨r, v, body, source⟩ := d
    simp only [Node.children, List.mem_cons] at h
    rcases h with rfl | h
    · simp; omega
    · obtain ⟨e, he, rfl⟩ := List.mem_map.1 h
      have := List.sizeOf_lt_of_mem he
      have := sizeOf_element_node e
      simp; omega
  | structDef s =>
    obtain ⟨r, name, members⟩ := s
    have := sizeOf_declNodes h
    simp at this ⊢; omega
  | task t => have := Task.sizeOf_child h; simp; omega
  | command k =>
    obtain ⟨r, parts, heredoc⟩ := k
    have := sizeOf_partNodes h
    simp at this ⊢; omega
  | workflow w => have := Workflow.sizeOf_child h; simp; omega
  | call k =>
    obtain ⟨r, callee, name, inputs⟩ := k
    have := sizeOf_memberNodes h
    simp at this ⊢; omega
  | scatter r body item e =>
    have := sizeOf_range_pos r
    simp only [Node.children, List.mem_cons] at h
    rcases h with rfl | h
    · simp; omega
    · have := sizeOf_bodyNodes h; simp; omega
  | conditional r body e =>
    have := sizeOf_range_pos r
    simp only [Node.children, List.mem_cons] at h
    rcases h with rfl | h
    · simp; omega
    · have := sizeOf_bodyNodes h; simp; omega
  | decl d => have := Decl.sizeOf_child h; simp; omega
  | type t =>
    cases t <;> simp [Node.children, Ty.parameters] at h
    · subst h
      simp only [Node.type.sizeOf_spec, Ty.optional.sizeOf_spec]
      omega
    · subst h
      simp only [Node.type.sizeOf_spec, Ty.array.sizeOf_spec]
      omega
    · rcases h with rfl | rfl <;> simp <;> omega
    · rcases h with rfl | rfl <;> simp <;> omega
  | expr e => have := Expr.sizeOf_child h; simp; omega
  | placeholder p =>
    obtain ⟨r, options, e⟩ := p
    simp [Node.children, Placeholder.expr] at h
    subst h
    simp only [Node.expr.sizeOf_spec, Node.placeholder.sizeOf_spec, Placeholder.mk.sizeOf_spec]
    omega
  | metaValue m => have := Meta.sizeOf_child h; simp; omega

end Wdl
