import Wdl.Proofs.Displacement

/-!
# Wdl.Proofs.Rebuilding -- building the same document at another place

No check looks at where anything stands, and no range is anything but the range of what is written.
So a document that is written at another place is built if it was built before, and what is built
from it is what was built before, at that place. Moving a document there and back again shows that
it is not built at one place only.

* `Carries m c c'` says of two checks that the second gives what the first gives, changed by `m`,
  whenever the first succeeds. It goes through composing (`carries_bind`) and lists
  (`carries_mapM`), so there is one short lemma for each function of the builder, named after it:
  `decl_carries`, `metaValue_carries` and so on.
* `Builder.Carries` is the same for computations that warn. What is warned of may be at other
  places, and is left open.
* Stripping of commands is compared by `strip_map`: what is stripped does not depend on what stands
  in for text.
* Sections and items are moved as a whole (`Section.move`, `Item.move`), and put together to the
  moved task or workflow.

`Build.document_carries` is the result.
-/

namespace Wdl

variable {α β γ δ : Type}

/-! ## Templates

Each function of stripping commutes with a change of what stands in for text. The lemmas follow the
functions one by one. -/

/-- The piece with something else that stands in for text. -/
def Piece.map (g : α → β) : Piece α → Piece β
  | .text chars => .text chars
  | .hole content => .hole (g content)

namespace Indentation

variable {g : α → β}

/-- The line with other things that stand in for text. -/
def Line.map (g : α → β) (line : Line α) : Line β := List.map (Piece.map g) line

theorem onFirst_map (line : Line α) (ls : List (Line α)) :
    onFirst (Line.map g line) (ls.map (Line.map g)) = (onFirst line ls).map (Line.map g) := by
  cases ls with
  | nil => rfl
  | cons first more =>
    show (Line.map g line ++ Line.map g first) :: _ = Line.map g (line ++ first) :: _
    rw [Line.map, Line.map, Line.map, List.map_append]

theorem textLines_map (ls : List (List Char)) :
    (ls.map fun l => ([.text l] : Line α)).map (Line.map g) = ls.map fun l => [.text l] := by
  rw [List.map_map]
  rfl

theorem lines_map (ps : List (Piece α)) :
    lines (ps.map (Piece.map g)) = (lines ps).map (Line.map g) := by
  induction ps with
  | nil => rfl
  | cons p ps ih =>
    cases p with
    | hole content =>
      show onFirst (Line.map g [.hole content]) (lines (ps.map (Piece.map g))) = _
      rw [ih, onFirst_map]
      rfl
    | text chars =>
      rw [List.map_cons, Piece.map, lines, lines, ih]
      obtain ⟨first, more⟩ := cutLines chars
      dsimp only
      cases more.reverse with
      | nil => exact onFirst_map [.text first] (lines ps)
      | cons last middle =>
        simp only [List.map_cons, List.map_append, textLines_map, ← onFirst_map]
        rfl

theorem indentAfter_map (before : List Char) (line : Line α) :
    indentAfter before (Line.map g line) = indentAfter before line := by
  induction line generalizing before with
  | nil => rfl
  | cons p line ih =>
    cases p with
    | hole content => rfl
    | text chars =>
      show (if chars.all isBlank then indentAfter (before ++ chars) (Line.map g line) else _) = _
      rw [ih]
      rfl

theorem indent_map (line : Line α) : indent (Line.map g line) = indent line :=
  indentAfter_map [] line

theorem isBlankLine_map (line : Line α) : isBlankLine (Line.map g line) = isBlankLine line :=
  congrArg Option.isNone (indent_map line)

theorem dedent_map (n : Nat) (line : Line α) :
    dedent n (Line.map g line) = Line.map g (dedent n line) := by
  induction line generalizing n with
  | nil => rfl
  | cons p line ih =>
    cases p with
    | hole content => exact congrArg (Piece.hole (g content) :: ·) (ih n)
    | text chars => exact congrArg (Piece.text (chars.drop n) :: ·) (ih (n - chars.length))

theorem dropBlankFirst_map (ls : List (Line α)) :
    dropBlankFirst (ls.map (Line.map g)) = (dropBlankFirst ls).map (Line.map g) := by
  match ls with
  | [] | [_] => rfl
  | first :: second :: more =>
    simp only [List.map_cons, dropBlankFirst, isBlankLine_map]
    split <;> rfl

theorem dropBlankLast_map (ls : List (Line α)) :
    dropBlankLast (ls.map (Line.map g)) = (dropBlankLast ls).map (Line.map g) := by
  rw [dropBlankLast, dropBlankLast, List.getLast?_map]
  cases ls.getLast? with
  | none => rfl
  | some last =>
    simp only [Option.map_some, isBlankLine_map]
    split
    · rw [List.map_dropLast]
    · rfl

theorem snoc_map (done : List (Piece α)) (p : Piece α) :
    snoc (done.map (Piece.map g)) (p.map g) = (snoc done p).map (Piece.map g) := by
  cases p with
  | hole content => simp [Piece.map, snoc]
  | text chars =>
    cases chars with
    | nil => rfl
    | cons c chars =>
      simp only [Piece.map, snoc, List.getLast?_map]
      cases done.getLast? with
      | none => simp [Piece.map]
      | some last => cases last <;> simp [Piece.map, List.map_dropLast]

theorem linePieces_map (ls : List (Line α)) :
    linePieces (ls.map (Line.map g)) = (linePieces ls).map (Piece.map g) := by
  match ls with
  | [] | [_] => rfl
  | line :: second :: more =>
    have rest := linePieces_map (second :: more)
    simp only [List.map_cons] at rest
    simp only [List.map_cons, linePieces, rest, List.map_append]
    rfl

theorem unlines_map (ls : List (Line α)) :
    unlines (ls.map (Line.map g)) = (unlines ls).map (Piece.map g) := by
  have fold : ∀ (ps : List (Piece α)) (done : List (Piece α)),
      (ps.map (Piece.map g)).foldl snoc (done.map (Piece.map g)) =
        (ps.foldl snoc done).map (Piece.map g) := by
    intro ps
    induction ps with
    | nil => exact fun done => rfl
    | cons p ps ih =>
      intro done
      rw [List.map_cons, List.foldl_cons, List.foldl_cons, snoc_map, ih]
  rw [unlines, unlines, linePieces_map]
  exact fold (linePieces ls) []

/-- The template with other things that stand in for text. -/
def Stripped.map (g : α → β) (s : Stripped α) : Stripped β := ⟨s.width, s.pieces.map (Piece.map g)⟩

/-- What is stripped from a template does not depend on what stands in for text. -/
theorem strip_map (template : List (Piece α)) :
    strip (template.map (Piece.map g)) = (strip template).map g := by
  -- which lines are kept, and how far they are indented, is read off their texts alone
  have body : dropBlankLast (dropBlankFirst (lines (template.map (Piece.map g)))) =
      (dropBlankLast (dropBlankFirst (lines template))).map (Line.map g) := by
    rw [lines_map, dropBlankFirst_map, dropBlankLast_map]
  have indents : ∀ ls : List (Line α),
      (ls.map (Line.map g)).filterMap indent = ls.filterMap indent := by
    intro ls
    rw [List.filterMap_map]
    exact List.filterMap_congr fun line _ => indent_map line
  have dedented : ∀ (n : Nat) (ls : List (Line α)),
      ((ls.map (Line.map g)).map fun line => if isBlankLine line then line else dedent n line) =
        (ls.map fun line => if isBlankLine line then line else dedent n line).map (Line.map g) := by
    intro n ls
    rw [List.map_map, List.map_map]
    refine List.map_congr_left fun line _ => ?_
    simp only [Function.comp_apply, isBlankLine_map, dedent_map]
    split <;> rfl
  simp only [strip, body, indents, dedented, unlines_map]
  split <;> rfl

end Indentation

/-! ## Checks -/

namespace Build

/-- A second check gives what the first gives, changed by a map, whenever the first succeeds. -/
def Carries (m : α → β) (c : Checked α) (c' : Checked β) : Prop := ∀ x, c = .ok x → c' = .ok (m x)

section Carries

variable {m : α → β} {n : γ → δ} {c : Checked α} {c' : Checked β}

/-- Values that correspond carry over. -/
theorem carries_pure {x : α} {y : β} (h : y = m x) : Carries m (pure x) (pure y) := by
  rintro _ ⟨⟩
  exact congrArg Except.ok h

/-- A check that fails carries over to anything. -/
theorem carries_violate (v : Violation) (r : Range) : Carries m (violate v r) c' :=
  fun _ h => (violate_ne_ok.1 h).elim

/-- Checks behind checks carry over. -/
theorem carries_bind {k : α → Checked γ} {k' : β → Checked δ} (first : Carries m c c')
    (rest : ∀ x, Carries n (k x) (k' (m x))) : Carries n (c >>= k) (c' >>= k') := by
  intro y h
  obtain ⟨x, hx, hy⟩ := bind_eq_ok.1 h
  exact bind_eq_ok.2 ⟨m x, first x hx, rest x y hy⟩

/-- Checks of the items of a list carry over. -/
theorem carries_mapM {k : α → Checked γ} {k' : β → Checked δ}
    (each : ∀ x, Carries n (k x) (k' (m x))) (xs : List α) :
    Carries (List.map n) (xs.mapM k) ((xs.map m).mapM k') := by
  intro ys h
  refine mapM_eq_ok.2 ?_
  rw [List.forall₂_map_left_iff, List.forall₂_map_right_iff]
  exact (mapM_eq_ok.1 h).imp fun x y => each x y

end Carries

variable {f : Nat → Nat} (rules : Rules)

/-- Whether a name is reserved does not depend on where it stands. -/
theorem name_carries (w : Surface.Word) :
    Carries id (checkName rules w) (checkName rules (w.move f)) := fun _ => checkName_move

/-- What is built from an expression moves with it. -/
theorem expr_carries (σ : Surface.Expr) :
    Carries (Expr.move f) (expr rules σ) (expr rules (σ.move f)) := fun _ => expr_move rules σ

/-! ## Types and declarations -/

theorem plainType_carries (whole inner : Range) (name : String) (ps : List Ty) (nonempty : Bool) :
    Carries (Ty.move f) (plainType whole inner name ps nonempty)
      (plainType (whole.move f) (inner.move f) name (ps.map (Ty.move f)) nonempty) := by
  intro T h
  unfold plainType at h ⊢
  rw [List.isEmpty_map]
  repeat' split at h
  all_goals first
    | exact (violate_ne_ok.1 h).elim
    | (cases h; simp_all [Ty.move])

theorem quantifiedType_carries (whole : Range) (name : String) (ps : List Ty)
    (q : Option (Surface.Quantifier × Nat)) :
    Carries (Ty.move f) (quantifiedType whole name ps q)
      (quantifiedType (whole.move f) name (ps.map (Ty.move f)) (q.map fun q => (q.1, f q.2))) := by
  cases q with
  | none => exact plainType_carries whole whole name ps false
  | some q =>
    obtain ⟨q, start⟩ := q
    -- the rest of the type ends where its quantifier starts, and that moves as well
    refine carries_bind (plainType_carries whole ⟨whole.start, start⟩ name ps (isNonempty q))
      fun plain => carries_pure ?_
    cases isOptional q <;> rfl

mutual

theorem type_carries : (t : Surface.TypeExpr) →
    Carries (Ty.move f) (type t) (type (t.move f))
  | .mk whole name parameters q => by
    simp only [Surface.TypeExpr.move, type]
    exact carries_bind (types_carries parameters) fun ps =>
      quantifiedType_carries whole name.text ps q

theorem types_carries : (ts : List Surface.TypeExpr) →
    Carries (List.map (Ty.move f)) (types ts) (types (Surface.moveTypes f ts))
  | [] => carries_pure rfl
  | t :: ts => by
    simp only [Surface.moveTypes, types]
    exact carries_bind (type_carries t) fun _ => carries_bind (types_carries ts) fun _ =>
      carries_pure rfl

end

theorem initializer_carries (σ : Option Surface.Expr) :
    Carries (Option.map (Expr.move f)) (initializer rules σ)
      (initializer rules (σ.map (Surface.Expr.move f))) := by
  cases σ with
  | none => exact carries_pure rfl
  | some σ => exact carries_bind (expr_carries rules σ) fun _ => carries_pure rfl

theorem decl_carries (d : Surface.Decl) :
    Carries (Decl.move f) (decl rules d) (decl rules (d.move f)) :=
  carries_bind (type_carries d.type) fun _ =>
    carries_bind (initializer_carries rules d.expr) fun _ =>
      carries_bind (name_carries rules d.name) fun _ => carries_pure rfl

theorem decls_carries (ds : List Surface.Decl) :
    Carries (List.map (Decl.move f)) (ds.mapM (decl rules))
      ((ds.map (Surface.Decl.move f)).mapM (decl rules)) :=
  carries_mapM (decl_carries rules) ds

theorem bound_carries (ds : List Decl) :
    Carries id (ds.forM checkBound) ((ds.map (Decl.move f)).forM checkBound) := by
  intro _ h
  -- whether there is an initializer is no matter of where it stands
  refine forM_eq_ok.2 (List.forall_mem_map.2 fun d hd => ?_)
  have bound := forM_eq_ok.1 h d hd
  unfold checkBound at bound ⊢
  rw [Decl.move, Option.isNone_map]
  split at bound
  · exact (violate_ne_ok.1 bound).elim
  · rename_i some
    exact if_neg some

theorem outputs_carries (ds : List Surface.Decl) :
    Carries (List.map (Decl.move f)) (outputs rules ds)
      (outputs rules (ds.map (Surface.Decl.move f))) :=
  carries_bind (decls_carries rules ds) fun ds =>
    carries_bind (bound_carries ds) fun _ => carries_pure rfl

/-! ## Meta sections -/

theorem metaNumber_carries (r : Range) (sign : Option Surface.Sign) (n : Surface.Number) :
    Carries (Meta.move f) (metaNumber r sign n) (metaNumber (r.move f) sign (n.move f)) := by
  refine carries_bind (m := id) (fun _ => numberValue_move) fun v => carries_pure ?_
  dsimp only [id_eq]
  generalize (if sign = some .minus then v.neg else v) = signed
  cases signed <;> rw [Meta.move]

theorem distinct_carries (repeated : String → Violation) (m : α → β) (done : List (String × α))
    (xs : List (String × α × Range)) :
    Carries (List.map (changeEntry m)) (distinct repeated done xs)
      (distinct repeated (done.map (changeEntry m)) (xs.map (placeEntry f m))) :=
  fun _ => distinct_place m

mutual

theorem metaValue_carries (N : CharacterNames) : (m : Surface.Meta) →
    Carries (Meta.move f) (metaValue N m) (metaValue N (m.move f))
  | .null _ => by
    simp only [Surface.Meta.move, metaValue]
    exact carries_pure (by rw [Meta.move])
  | .boolean _ _ => by
    simp only [Surface.Meta.move, metaValue]
    exact carries_pure (by rw [Meta.move])
  | .number r sign n => by
    simp only [Surface.Meta.move, metaValue]
    exact metaNumber_carries r sign n
  | .string q => by
    simp only [Surface.Meta.move, metaValue]
    exact carries_bind (m := id) (fun _ => decodeText_move) fun _ =>
      carries_pure (by rw [Meta.move]; rfl)
  | .array _ items => by
    simp only [Surface.Meta.move, metaValue]
    exact carries_bind (metaItems_carries N items) fun _ =>
      carries_pure (by rw [Meta.move, moveMetas_eq_map])
  | .object _ members => by
    simp only [Surface.Meta.move, metaValue]
    exact carries_bind (metaEntries_carries N members) fun entries =>
      carries_bind (distinct_carries .repeatedKey (Meta.move f) [] entries) fun _ =>
        carries_pure (by rw [Meta.move, moveMetaMembers_eq_map]; rfl)

theorem metaItems_carries (N : CharacterNames) : (ms : List Surface.Meta) →
    Carries (List.map (Meta.move f)) (metaItems N ms)
      (metaItems N (Surface.moveMetas f ms))
  | [] => carries_pure rfl
  | m :: ms => by
    simp only [Surface.moveMetas, metaItems]
    exact carries_bind (metaValue_carries N m) fun _ =>
      carries_bind (metaItems_carries N ms) fun _ => carries_pure rfl

theorem metaEntries_carries (N : CharacterNames) : (ms : List Surface.MetaMember) →
    Carries (List.map (placeEntry f (Meta.move f))) (metaEntries N ms)
      (metaEntries N (Surface.moveMetaMembers f ms))
  | [] => carries_pure rfl
  | (_, _, m) :: ms => by
    simp only [Surface.moveMetaMembers, metaEntries]
    exact carries_bind (metaValue_carries N m) fun _ =>
      carries_bind (metaEntries_carries N ms) fun _ => carries_pure rfl

end

/-- The section at another place. -/
def Section.move (f : Nat → Nat) : Section → Section
  | .inputs ds => .inputs (ds.map (Decl.move f))
  | .outputs ds => .outputs (ds.map (Decl.move f))
  | .metadata members => .metadata (moveMetaMembers f members)
  | .parameterMeta members => .parameterMeta (moveMetaMembers f members)
  | .runtime entries => .runtime (moveEntries f entries)

theorem metaSection_carries (N : CharacterNames) (s : Surface.MetaSection) :
    Carries (Section.move f) (metaSection N s) (metaSection N (s.move f)) := by
  obtain ⟨r, kind, members⟩ := s
  refine carries_bind (metaEntries_carries N members) fun entries =>
    carries_bind (distinct_carries .repeatedKey (Meta.move f) [] entries) fun built =>
      carries_pure ?_
  cases kind with
  | metaSection => exact congrArg Section.metadata (moveMetaMembers_eq_map built).symm
  | parameterMeta => exact congrArg Section.parameterMeta (moveMetaMembers_eq_map built).symm

/-! ## Putting sections together

The first section of a kind counts, and moving sections keeps their kinds and their order. So each
field of a task or workflow comes from the moved section that it came from before. -/

/-- The item at another place, with what is no section changed. -/
def Item.move (f : Nat → Nat) (m : α → β) : Item α → Item β
  | .block r s => .block (r.move f) (s.move f)
  | .other x => .other (m x)

theorem sectionsOf_move (m : α → β) (items : List (Item α)) :
    sectionsOf (items.map (Item.move f m)) =
      (sectionsOf items).map fun x => (x.1.move f, x.2.move f) := by
  rw [sectionsOf, sectionsOf, List.filterMap_map, List.map_filterMap]
  refine List.filterMap_congr fun item _ => ?_
  cases item <;> rfl

theorem othersOf_move (m : α → β) (items : List (Item α)) :
    othersOf (items.map (Item.move f m)) = (othersOf items).map m := by
  rw [othersOf, othersOf, List.filterMap_map, List.map_filterMap]
  refine List.filterMap_congr fun item _ => ?_
  cases item <;> rfl

theorem kind_move (s : Section) : (s.move f).kind = s.kind := by cases s <;> rfl

theorem repeatedAfter_move (seen : List SectionKind) (ss : List (Range × Section)) :
    repeatedAfter seen (ss.map fun x => (x.1.move f, x.2.move f)) =
      (repeatedAfter seen ss).map fun x => (x.1.move f, x.2) := by
  induction ss generalizing seen with
  | nil => rfl
  | cons x ss ih =>
    simp only [List.map_cons, repeatedAfter, kind_move, ih]
    split <;> rfl

theorem checkSections_carries (owner : String) (m : α → β) (items : List (Item α)) :
    Carries id (checkSections owner items)
      (checkSections owner (items.map (Item.move f m))) := by
  rw [checkSections, checkSections, sectionsOf_move, repeatedAfter_move]
  cases repeatedAfter [] (sectionsOf items) with
  | none => exact carries_pure rfl
  | some x => exact carries_violate _ _

/-- What the first section of a kind holds, or nothing, is changed as the sections are. -/
theorem findSection_move {m : α → β} {p : Section → Option (List α)}
    {q : Section → Option (List β)} (h : ∀ s, q (s.move f) = (p s).map (List.map m))
    (ss : List Section) : ((ss.map (Section.move f)).findSome? q).getD [] =
      ((ss.findSome? p).getD []).map m := by
  induction ss with
  | nil => rfl
  | cons s ss ih =>
    rw [List.map_cons, List.findSome?_cons, List.findSome?_cons, h]
    cases p s with
    | none => exact ih
    | some xs => rfl

theorem inputsOf_move (ss : List Section) :
    inputsOf (ss.map (Section.move f)) = (inputsOf ss).map (Decl.move f) :=
  findSection_move (fun s => by cases s <;> rfl) ss

theorem outputsOf_move (ss : List Section) :
    outputsOf (ss.map (Section.move f)) = (outputsOf ss).map (Decl.move f) :=
  findSection_move (fun s => by cases s <;> rfl) ss

theorem metadataOf_move (ss : List Section) :
    metadataOf (ss.map (Section.move f)) = moveMetaMembers f (metadataOf ss) := by
  rw [moveMetaMembers_eq_map]
  refine findSection_move (fun s => ?_) ss
  cases s with
  | metadata members => exact congrArg some (moveMetaMembers_eq_map members)
  | _ => rfl

theorem parameterMetaOf_move (ss : List Section) :
    parameterMetaOf (ss.map (Section.move f)) = moveMetaMembers f (parameterMetaOf ss) := by
  rw [moveMetaMembers_eq_map]
  refine findSection_move (fun s => ?_) ss
  cases s with
  | parameterMeta members => exact congrArg some (moveMetaMembers_eq_map members)
  | _ => rfl

theorem runtimeOf_move (ss : List Section) :
    runtimeOf (ss.map (Section.move f)) = moveEntries f (runtimeOf ss) := by
  refine findSection_move (fun s => ?_) ss
  cases s <;> rfl

/-- The sections of moved items, without their ranges. -/
theorem sections_move (m : α → β) (items : List (Item α)) :
    (sectionsOf (items.map (Item.move f m))).map Prod.snd =
      ((sectionsOf items).map Prod.snd).map (Section.move f) := by
  rw [sectionsOf_move, List.map_map, List.map_map]
  rfl

theorem assembleTask_carries (r : Range) (name : String) (items : List (Item Decl))
    (c : Command) :
    Carries (Task.move f) (assembleTask r name items c)
      (assembleTask (r.move f) name (items.map (Item.move f (Decl.move f))) (c.move f)) := by
  refine carries_bind (checkSections_carries "task" (Decl.move f) items) fun _ =>
    carries_pure ?_
  simp only [Task.move, sections_move, othersOf_move, inputsOf_move, outputsOf_move,
    metadataOf_move, parameterMetaOf_move, runtimeOf_move]

theorem assembleWorkflow_carries (r : Range) (name : String) (items : List (Item WorkflowNode)) :
    Carries (Workflow.move f) (assembleWorkflow r name items)
      (assembleWorkflow (r.move f) name
        (items.map (Item.move f (WorkflowNode.move f)))) := by
  refine carries_bind (checkSections_carries "workflow" (WorkflowNode.move f) items) fun _ =>
    carries_pure ?_
  simp only [Workflow.move, sections_move, othersOf_move, inputsOf_move, outputsOf_move,
    metadataOf_move, parameterMetaOf_move, moveBody_eq_map]

/-! ## Workflows -/

theorem callInput_carries (i : Surface.CallInput) :
    Carries (changeEntry (Expr.move f)) (callInput rules i) (callInput rules (i.move f)) :=
  carries_bind (initializer_carries rules i.expr) fun e =>
    carries_bind (name_carries rules i.name) fun _ => carries_pure (by cases e <;> rfl)

theorem call_carries (c : Surface.Call) :
    Carries (Call.move f) (call rules c) (call rules (c.move f)) := by
  refine carries_bind (carries_mapM (callInput_carries rules) c.inputs) fun inputs =>
    carries_bind (m := id) ?_ fun _ => carries_pure ?_
  · show Carries id (c.givenName.forM _) ((c.givenName.map (Surface.Word.move f)).forM _)
    cases c.givenName with
    | none => exact carries_pure rfl
    | some w => exact name_carries rules w
  · obtain ⟨r, callee, givenName, written⟩ := c
    simp only [Surface.Call.move, Call.move, moveEntries, List.map_map, Option.map_map]
    rfl

mutual

theorem workflowNode_carries : (n : Surface.WorkflowNode) →
    Carries (WorkflowNode.move f) (workflowNode rules n) (workflowNode rules (n.move f))
  | .decl d => by
    simp only [Surface.WorkflowNode.move, workflowNode]
    exact carries_bind (decl_carries rules d) fun _ => carries_pure (by rw [WorkflowNode.move])
  | .call c => by
    simp only [Surface.WorkflowNode.move, workflowNode]
    exact carries_bind (call_carries rules c) fun _ => carries_pure (by rw [WorkflowNode.move])
  | .scatter r item e body => by
    simp only [Surface.WorkflowNode.move, workflowNode]
    exact carries_bind (expr_carries rules e) fun _ =>
      carries_bind (workflowNodes_carries body) fun _ =>
        carries_bind (name_carries rules item) fun _ =>
          carries_pure (by rw [WorkflowNode.move, moveBody_eq_map]; rfl)
  | .conditional r e body => by
    simp only [Surface.WorkflowNode.move, workflowNode]
    exact carries_bind (expr_carries rules e) fun _ =>
      carries_bind (workflowNodes_carries body) fun _ =>
        carries_pure (by rw [WorkflowNode.move, moveBody_eq_map])

theorem workflowNodes_carries : (ns : List Surface.WorkflowNode) →
    Carries (List.map (WorkflowNode.move f)) (workflowNodes rules ns)
      (workflowNodes rules (Surface.moveBody f ns))
  | [] => carries_pure rfl
  | n :: ns => by
    simp only [Surface.moveBody, workflowNodes]
    exact carries_bind (workflowNode_carries n) fun _ =>
      carries_bind (workflowNodes_carries ns) fun _ => carries_pure rfl

end

theorem workflowItem_carries (item : Surface.WorkflowItem) :
    Carries (Item.move f (WorkflowNode.move f)) (workflowItem rules item)
      (workflowItem rules (item.move f)) := by
  cases item with
  | inputs r ds => exact carries_bind (decls_carries rules ds) fun _ => carries_pure rfl
  | outputs r ds => exact carries_bind (outputs_carries rules ds) fun _ => carries_pure rfl
  | metadata s => exact carries_bind (metaSection_carries rules.names s) fun _ => carries_pure rfl
  | node n => exact carries_bind (workflowNode_carries rules n) fun _ => carries_pure rfl

theorem workflow_carries (w : Surface.Workflow) :
    Carries (Workflow.move f) (workflow rules w) (workflow rules (w.move f)) :=
  carries_bind (carries_mapM (workflowItem_carries rules) w.items) fun items =>
    carries_bind (name_carries rules w.name) fun _ =>
      assembleWorkflow_carries w.range w.name.text items

/-! ## Imports and structs -/

theorem importAlias_carries (a : Surface.Alias) :
    Carries (placeEntry f id) (importAlias rules a) (importAlias rules (a.move f)) :=
  carries_bind (name_carries rules a.target) fun _ => carries_pure rfl

theorem importDoc_carries (i : Surface.Import) :
    Carries (Import.move f) (importDoc rules i) (importDoc rules (i.move f)) := by
  refine carries_bind (m := id) (fun _ => decodeText_move) fun uri =>
    carries_bind (carries_mapM (importAlias_carries rules) i.aliases) fun aliases => ?_
  have named : (i.move f).givenName.map Surface.Word.text =
      i.givenName.map Surface.Word.text := by
    show (i.givenName.map (Surface.Word.move f)).map Surface.Word.text = _
    rw [Option.map_map]
    rfl
  dsimp only [id_eq]
  rw [named]
  split
  · exact carries_violate _ _
  · refine carries_bind (distinct_carries .repeatedAlias id [] aliases) fun entries =>
      carries_pure ?_
    have same : entries.map (changeEntry id) = entries := List.map_id entries
    rw [same]
    rfl

theorem checkMembers_carries (struct : String) (seen : List String) (ds : List Decl) :
    Carries id (checkMembers struct seen ds)
      (checkMembers struct seen (ds.map (Decl.move f))) := by
  induction ds generalizing seen with
  | nil => exact carries_pure rfl
  | cons d ds ih =>
    rw [List.map_cons, checkMembers, checkMembers]
    show Carries id _ (if seen.contains d.name then _ else _)
    split
    · exact carries_violate _ _
    · exact ih (d.name :: seen)

theorem structDef_carries (s : Surface.StructDef) :
    Carries (StructDef.move f) (structDef rules s) (structDef rules (s.move f)) :=
  carries_bind (decls_carries rules s.members) fun members =>
    carries_bind (name_carries rules s.name) fun _ =>
      carries_bind (checkMembers_carries s.name.text [] members) fun _ => carries_pure rfl

/-! ## Putting elements together -/

theorem version_carries (r : Range) (identifier : String) :
    Carries (Version.move f) (version r identifier) (version (r.move f) identifier) := by
  unfold version
  split
  · exact carries_pure rfl
  · exact carries_violate _ _

/-- The element at another place, the version statement included. -/
def TopLevel.move (f : Nat → Nat) : TopLevel → TopLevel
  | .version v => .version (v.move f)
  | .element e => .element (e.move f)

/-- What was put together, at another place. -/
def Assembled.move (f : Nat → Nat) (a : Assembled) : Assembled :=
  ⟨a.version.map (Version.move f), a.hasWorkflow, a.body.map (Element.move f)⟩

theorem Assembled.add_carries (a : Assembled) (item : TopLevel) :
    Carries (Assembled.move f) (a.add item) ((a.move f).add (item.move f)) := by
  cases item with
  | version v =>
    simp only [TopLevel.move, Assembled.add, Assembled.move, Option.isSome_map, List.isEmpty_map]
    split
    · exact carries_violate _ _
    split
    · exact carries_violate _ _
    · exact carries_pure rfl
  | element e =>
    have added : ∀ hasWorkflow, (⟨a.version.map (Version.move f), hasWorkflow,
        a.body.map (Element.move f) ++ [e.move f]⟩ : Assembled) =
          Assembled.move f ⟨a.version, hasWorkflow, a.body ++ [e]⟩ := by
      intro hasWorkflow
      rw [Assembled.move, List.map_append]
      rfl
    cases e with
    | workflow w =>
      obtain ⟨v, hasWorkflow, body⟩ := a
      cases hasWorkflow with
      | true => exact carries_violate _ _
      | false => exact carries_pure (added true)
    | _ => exact carries_pure (added a.hasWorkflow)

theorem assembleDocument_carries (source source' : SourceText) (items : List TopLevel) :
    Carries (Document.move f source') (assembleDocument source items)
      (assembleDocument source' (items.map (TopLevel.move f))) := by
  have added : ∀ a : Assembled, Carries (Assembled.move f) (items.foldlM Assembled.add a)
      ((items.map (TopLevel.move f)).foldlM Assembled.add (a.move f)) := by
    induction items with
    | nil => exact fun a => carries_pure rfl
    | cons item items ih =>
      intro a
      rw [List.map_cons, List.foldlM_cons, List.foldlM_cons]
      exact carries_bind (a.add_carries item) ih
  refine carries_bind (added ⟨none, false, []⟩) fun a =>
    carries_bind (m := Version.move f) ?_ fun v => carries_pure rfl
  -- without a version statement nothing is built, wherever that is reported
  obtain ⟨v, hasWorkflow, body⟩ := a
  cases v with
  | none => exact carries_violate _ _
  | some v => exact carries_pure rfl

end Build

/-! ## Builders -/

/-- A second builder gives what the first gives, changed by a map, whenever the first succeeds. What
either warns of, and what was warned of before, does not matter. -/
def Builder.Carries (m : α → β) (b : Builder α) (b' : Builder β) : Prop :=
  ∀ x before after before', StateT.run (ExceptT.run b) before = (.ok x, after) →
    ∃ after', StateT.run (ExceptT.run b') before' = (.ok (m x), after')

namespace Builder

variable {m : α → β} {n : γ → δ} {b : Builder α} {b' : Builder β}

theorem carries_pure {x : α} {y : β} (h : y = m x) : Carries m (pure x) (pure y) := by
  rintro _ before after before' ⟨⟩
  exact ⟨before', by rw [h]; rfl⟩

theorem carries_bind {k : α → Builder γ} {k' : β → Builder δ} (first : Carries m b b')
    (rest : ∀ x, Carries n (k x) (k' (m x))) : Carries n (b >>= k) (b' >>= k') := by
  intro y before after before' h
  simp only [ExceptT.run_bind, StateT.run_bind] at h ⊢
  cases run : StateT.run (ExceptT.run b) before with
  | mk result between =>
    rw [run] at h
    cases result with
    | error v => cases h
    | ok x =>
      obtain ⟨between', run'⟩ := first x before between before' run
      rw [run']
      exact rest x y between after between' h

theorem carries_check {c : Checked α} {c' : Checked β} (h : Build.Carries m c c') :
    Carries m (Build.check c) (Build.check c') := by
  rintro x before after before' run
  cases run
  exact ⟨before', by rw [h x rfl]; rfl⟩

theorem carries_warn (w w' : Warning) : Carries id (Build.warn w) (Build.warn w') := by
  rintro _ before after before' ⟨⟩
  exact ⟨_, rfl⟩

theorem carries_each {k : α → Builder γ} {k' : β → Builder δ}
    (each : ∀ x, Carries n (k x) (k' (m x))) (xs : List α) :
    Carries (List.map n) (Build.each k xs) (Build.each k' (xs.map m)) := by
  induction xs with
  | nil => exact carries_pure rfl
  | cons x xs ih =>
    exact carries_bind (each x) fun _ => carries_bind ih fun _ => carries_pure rfl

end Builder

/-! ## Tasks and documents -/

namespace Build

variable {f : Nat → Nat} (rules : Rules)

theorem runtimeEntry_carries (entry : Surface.RuntimeEntry) :
    Carries (fun x => (x.1.move f, x.2.1, x.2.2.move f)) (runtimeEntry rules entry)
      (runtimeEntry rules (entry.move f)) :=
  carries_bind (expr_carries rules entry.expr) fun _ => carries_pure rfl

theorem setEntry_change (m : α → β) (key : String) (value : α) (entries : List (String × α)) :
    setEntry key (m value) (entries.map (changeEntry m)) =
      (setEntry key value entries).map (changeEntry m) := by
  induction entries with
  | nil => rfl
  | cons entry entries ih =>
    obtain ⟨k, v⟩ := entry
    simp only [List.map_cons, changeEntry, setEntry]
    split
    · rfl
    · rw [List.map_cons, ← ih]
      rfl

theorem collectRuntime_carries (done : List (String × Expr))
    (entries : List (Range × String × Expr)) :
    Builder.Carries (List.map (changeEntry (Expr.move f))) (collectRuntime done entries)
      (collectRuntime (done.map (changeEntry (Expr.move f)))
        (entries.map fun x => (x.1.move f, x.2.1, x.2.2.move f))) := by
  induction entries generalizing done with
  | nil => exact Builder.carries_pure rfl
  | cons entry entries ih =>
    obtain ⟨r, key, e⟩ := entry
    have next := ih (setEntry key e done)
    rw [← setEntry_change] at next
    simp only [List.map_cons, collectRuntime, any_key_change]
    split
    · exact Builder.carries_bind (Builder.carries_warn _ _) fun _ => next
    · exact next

theorem command_carries (c : Surface.Command) :
    Builder.Carries (Command.move f) (command rules c) (command rules (c.move f)) := by
  have raw : Carries (List.map (RawPart.move f)) (rawParts rules c.parts)
      (rawParts rules (Surface.moveParts f c.parts)) := fun _ => rawParts_move rules c.parts
  refine Builder.carries_bind (Builder.carries_check raw) fun parts => ?_
  have pieces : (parts.map (RawPart.move f)).map pieceOf =
      (parts.map pieceOf).map (Piece.map (Placeholder.move f)) := by
    rw [List.map_map, List.map_map]
    refine List.map_congr_left fun p _ => ?_
    cases p <;> rfl
  have parts' : ∀ ps : List (Piece Placeholder),
      (ps.map (Piece.map (Placeholder.move f))).map partOf = moveParts f (ps.map partOf) := by
    intro ps
    induction ps with
    | nil => rfl
    | cons p ps ih => cases p <;> exact congrArg (_ :: ·) ih
  dsimp only
  rw [pieces, Indentation.strip_map]
  generalize Indentation.strip (parts.map pieceOf) = stripped
  have built : (⟨(c.move f).range, (stripped.map (Placeholder.move f)).pieces.map partOf,
      (c.move f).style == .heredoc⟩ : Command) =
        Command.move f ⟨c.range, stripped.pieces.map partOf, c.style == .heredoc⟩ := by
    rw [Indentation.Stripped.map, parts']
    rfl
  show Builder.Carries _ (if stripped.width.isNone then _ else _)
    (if stripped.width.isNone then _ else _)
  split
  · -- the warning names another place, but it stops nothing
    exact Builder.carries_bind (Builder.carries_warn _ _) fun _ => Builder.carries_pure built
  · exact Builder.carries_pure built

theorem taskItem_carries (item : Surface.TaskItem) :
    Builder.Carries (Item.move f (Decl.move f)) (taskItem rules item)
      (taskItem rules (item.move f)) := by
  cases item with
  | inputs r ds =>
    exact Builder.carries_bind (Builder.carries_check (decls_carries rules ds)) fun _ =>
      Builder.carries_pure rfl
  | outputs r ds =>
    exact Builder.carries_bind (Builder.carries_check (outputs_carries rules ds)) fun _ =>
      Builder.carries_pure rfl
  | metadata s =>
    exact Builder.carries_bind (Builder.carries_check (metaSection_carries rules.names s)) fun _ =>
      Builder.carries_pure rfl
  | runtime r entries =>
    refine Builder.carries_bind
      (Builder.carries_check (carries_mapM (runtimeEntry_carries rules) entries)) fun entries =>
        Builder.carries_bind (collectRuntime_carries [] entries) fun entries =>
          Builder.carries_pure ?_
    rw [Item.move, Section.move, moveEntries]
    rfl
  | decl d =>
    exact Builder.carries_bind (Builder.carries_check (decl_carries rules d)) fun _ =>
      Builder.carries_pure rfl

theorem task_carries (t : Surface.Task) :
    Builder.Carries (Task.move f) (task rules t) (task rules (t.move f)) := by
  refine Builder.carries_bind (Builder.carries_each (taskItem_carries rules) t.before) fun before =>
    Builder.carries_bind (command_carries rules t.command) fun c =>
      Builder.carries_bind (Builder.carries_each (taskItem_carries rules) t.behind) fun behind =>
        Builder.carries_bind (Builder.carries_check (name_carries rules t.name)) fun _ => ?_
  rw [← List.map_append]
  exact Builder.carries_check (assembleTask_carries t.range t.name.text (before ++ behind) c)

theorem element_carries (x : Surface.Element) :
    Builder.Carries (TopLevel.move f) (element rules x) (element rules (x.move f)) := by
  cases x with
  | version r w =>
    exact Builder.carries_bind (Builder.carries_check (version_carries r w.text)) fun _ =>
      Builder.carries_pure rfl
  | importDoc i =>
    exact Builder.carries_bind (Builder.carries_check (importDoc_carries rules i)) fun _ =>
      Builder.carries_pure rfl
  | struct s =>
    exact Builder.carries_bind (Builder.carries_check (structDef_carries rules s)) fun _ =>
      Builder.carries_pure rfl
  | task t =>
    exact Builder.carries_bind (task_carries rules t) fun _ => Builder.carries_pure rfl
  | workflow w =>
    exact Builder.carries_bind (Builder.carries_check (workflow_carries rules w)) fun _ =>
      Builder.carries_pure rfl

/-- What is built from a document moves with it, into whatever text it is moved. -/
theorem document_carries (source source' : SourceText) (d : Surface.Document) :
    Builder.Carries (Document.move f source') (document rules source d)
      (document rules source' (d.move f)) :=
  Builder.carries_bind (Builder.carries_each (element_carries rules) d.elements) fun items =>
    Builder.carries_check (assembleDocument_carries source source' items)

end Build

end Wdl
