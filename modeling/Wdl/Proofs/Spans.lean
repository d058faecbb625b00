import Wdl.Proofs.Documents
import Wdl.Proofs.Positions

/-!
# Wdl.Proofs.Spans -- where the nodes of a text are

The span of a node denotes the two ends of its range, by lines and columns as well as by bytes. It
holds the spans of the node's children, which do not overlap. This is so in every tree that parsing
gives, for either front end, whatever words are reserved.

* `Node.Root rules source n` and `Node.Parsed rules source n`: the node `n` is the root of what the
  text is parsed as, or somewhere below it.
* `Node.Parsed.sited` is what `Wdl.Proofs.Placement` says of such a node.
* `Span.Within` and `Span.Apart` compare spans by their bytes. `Span.Denotes.within` and
  `Span.Denotes.apart` lead there from ranges, which compare by characters.
* `Node.InPlace` is the statement about one node, and `Node.Parsed.inPlace` proves it of all.
-/

namespace Wdl

/-! ## Trees -/

/-- The root of the tree that a text gives, as a document or as an expression. -/
inductive Node.Root (rules : Rules) (source : SourceText) : Node → Prop
  | document {d : Document} : (parseDocument rules source).result = .ok d →
      Node.Root rules source (.document d)
  | expr {e : Expr} : (parseExpr rules source).result = .ok e → Node.Root rules source (.expr e)

/-- A node of the tree that a text gives. -/
def Node.Parsed (rules : Rules) (source : SourceText) (n : Node) : Prop :=
  ∃ root path, Node.Root rules source root ∧ Node.descendant? path root = some n

variable {rules : Rules} {source : SourceText}

/-- A node of a tree is in its place with all that is below it, and ends in the text. -/
theorem Node.Parsed.sited {n : Node} (h : n.Parsed rules source) :
    n.Everywhere (Parser.Sited rules.frontEnd rules (Parser.terminated source.chars)) ∧
      n.range.stop ≤ source.chars.length := by
  obtain ⟨root, path, parsed, below⟩ := h
  have sited : root.Everywhere
      (Parser.Sited rules.frontEnd rules (Parser.terminated source.chars)) ∧
      root.range.stop ≤ source.chars.length := by
    cases parsed with
    | document parsed => exact document_sited parsed
    | expr parsed => exact expr_sited parsed
  obtain ⟨sited, inside⟩ := sited
  have within := (sited.imp fun m hm => hm.placed).within below
  exact ⟨sited.descendant below, Nat.le_trans within.2 inside⟩

/-! ## Spans -/

/-- The bytes of one span lie in those of another. -/
def Span.Within (inner outer : Span) : Prop :=
  outer.offset ≤ inner.offset ∧ inner.endOffset ≤ outer.endOffset

/-- Two spans that share no byte. -/
def Span.Apart (a b : Span) : Prop := a.endOffset ≤ b.offset ∨ b.endOffset ≤ a.offset

section Denoted

variable {a b : Span} {cs : List Char} {i j k l : Nat}

/-- Byte offsets keep the order of positions, so what is inside by characters is inside by bytes. -/
theorem Span.Denotes.within (ha : a.Denotes cs i j) (hb : b.Denotes cs k l)
    (h : Range.Within ⟨i, j⟩ ⟨k, l⟩) : a.Within b := by
  constructor
  · rw [ha.offset_eq, hb.offset_eq]
    exact bytesBefore_mono cs h.1
  · rw [ha.endOffset_eq, hb.endOffset_eq]
    exact bytesBefore_mono cs h.2

theorem Span.Denotes.apart (ha : a.Denotes cs i j) (hb : b.Denotes cs k l)
    (h : Range.Apart ⟨i, j⟩ ⟨k, l⟩) : a.Apart b := by
  unfold Span.Apart
  rw [ha.offset_eq, hb.offset_eq, ha.endOffset_eq, hb.endOffset_eq]
  exact h.imp (bytesBefore_mono cs) (bytesBefore_mono cs)

end Denoted

/-- The place of a node in a text. Its span denotes two positions of the text and lies in it; the
spans of its children lie in its own and do not overlap. -/
structure Node.InPlace (source : SourceText) (n : Node) : Prop where
  denotes : (source.span n.range).Denotes source.chars n.range.start n.range.stop
  ordered : (source.span n.range).offset ≤ (source.span n.range).endOffset
  inside : (source.span n.range).endOffset ≤ source.text.utf8ByteSize
  within : ∀ m ∈ n.children, (source.span m.range).Within (source.span n.range)
  apart : n.children.Pairwise fun a b => (source.span a.range).Apart (source.span b.range)

/-- Every node of the tree that a text gives is in its place. -/
theorem Node.Parsed.inPlace (n : Node) (h : n.Parsed rules source) : n.InPlace source := by
  obtain ⟨sited, inside⟩ := h.sited
  have placed := sited.here.placed
  have denotes := source.span_denotes placed.ordered inside
  -- a child ends where its parent does, at the latest, and so in the text
  have below : ∀ m ∈ n.children,
      (source.span m.range).Denotes source.chars m.range.start m.range.stop := by
    intro m hm
    have ordered := (sited.child hm).here.placed.ordered
    exact source.span_denotes ordered (Nat.le_trans (placed.within m hm).2 inside)
  refine ⟨denotes, ?_, ?_, ?_, ?_⟩
  · rw [denotes.offset_eq, denotes.endOffset_eq]
    exact bytesBefore_mono _ denotes.start_le
  · rw [denotes.endOffset_eq]
    exact bytesBefore_le _ _
  · intro m hm
    exact (below m hm).within denotes (placed.within m hm)
  · refine placed.apart.imp_of_mem ?_
    intro a b ha hb h
    exact (below a ha).apart (below b hb) h

/-- The second item of the array `["é",x]` stands behind six bytes. -/
theorem Node.Parsed.inPlace_behind_accent :
    let source : SourceText :=
      { chars := ['[', '"', 'é', '"', ',', 'x', ']'], uri := "", abspath := "" }
    ∃ n : Node, n.Parsed ⟨.flat, [], .none⟩ source ∧ (source.span n.range).offset = 6 ∧
      n.InPlace source := by
  intro source
  have found : ((parseExpr ⟨.flat, [], .none⟩ source).result.toOption.bind fun e =>
      (Node.descendant? [1] (.expr e)).map fun n => (source.span n.range).offset) = some 6 := by
    decide +kernel
  obtain ⟨e, parsed, found⟩ := Option.bind_eq_some_iff.1 found
  obtain ⟨n, below, offset⟩ := Option.map_eq_some_iff.1 found
  have inTree : n.Parsed ⟨.flat, [], .none⟩ source :=
    ⟨_, _, .expr (toOption_eq_some.1 parsed), below⟩
  exact ⟨n, inTree, offset, Node.Parsed.inPlace n inTree⟩

end Wdl
