import Wdl.Proofs.Advances

/-!
# Wdl.Proofs.Traces -- what is wrong with a text is in the text

A document that is rejected, by its grammar or by another rule of the language, is rejected at a
place of its text. Every rule of the grammar goes forwards and gives up in the text, and what is
built from what it returns complains of nothing outside of what was read: from types and
declarations up to the whole document.

* `Builder.Blames b v`: the builder `b` stops at the violation `v`. `Builder.Traced` is
  `Build.Traced` for builders, which warn besides; warnings are of no concern here.
* `DeclUpto`, `TypeUpto`, `EntryUpto` and `MetaUpto` are `Contained` for the forms outside of
  expressions; `TracedTaskItem`, `TracedWorkflowItem` and `TracedElement` say the same of the items
  of a section list, whose builders make different things.
* For each rule there are two lemmas: `traced_…` says that its builder is traced if those of its
  parts are, and `advances_…` that its parser returns parts of which this is known.
* `traced_checkSections` and `traced_assembleDocument` are about the violations that arise from
  several items at once. They report the range of one of them.
* `parseDocument_traced` and `parseExpr_traced` are the results: a rejection is by the grammar, `On`
  the text, or for a violation `Traced` in it. `Wdl.Proofs.ErrorSpans` turns this into the range
  that is reported.
-/

namespace Wdl

variable {α β : Type} {fe : FrontEnd} {cs : List Char} {rules : Rules} {N : CharacterNames}
  {a b n : Nat}

/-! ## Builders -/

namespace Builder

/-- A builder stops at a violation; what it warned of does not matter. -/
def Blames (b : Builder α) (v : Violated) : Prop :=
  ∃ before after, StateT.run (ExceptT.run b) before = (.error v, after)

/-- Whatever a builder stops at is founded, and found in the first `n` characters. -/
def Traced (cs : List Char) (n : Nat) (b : Builder α) : Prop := ∀ v, b.Blames v → v.Traced cs n

theorem Traced.widen {m : Nat} {b : Builder α} (h : b.Traced cs m) (le : m ≤ n) :
    b.Traced cs n :=
  fun v failed => ⟨(h v failed).range.upto le, (h v failed).founded⟩

theorem traced_pure (x : α) : Traced cs n (pure x : Builder α) := by
  rintro v ⟨before, after, h⟩
  cases h

/-- A check does not warn, so what its builder stops at is what it complains of itself. -/
theorem traced_check {c : Checked α} (h : Build.Traced cs n c) : Traced cs n (Build.check c) := by
  rintro v ⟨before, after, run⟩
  cases run
  exact h v rfl

/-- One builder behind another. What the first one gives does not depend on the warnings in front of
it. -/
theorem traced_bind {b : Builder α} {f : α → Builder β} (first : b.Traced cs n)
    (rest : ∀ x, b.Gives x → (f x).Traced cs n) : Traced cs n (b >>= f) := by
  rintro v ⟨before, after, h⟩
  simp only [ExceptT.run_bind, StateT.run_bind] at h
  cases run : StateT.run (ExceptT.run b) before with
  | mk result between =>
    rw [run] at h
    cases result with
    | error w =>
      cases h
      exact first v ⟨before, between, run⟩
    | ok x => exact rest x ⟨before, between, run⟩ v ⟨between, after, h⟩

theorem traced_warn (w : Warning) : Traced cs n (Build.warn w) := by
  rintro v ⟨before, after, h⟩
  cases h

theorem traced_each {f : α → Builder β} {xs : List α} (each : ∀ x ∈ xs, (f x).Traced cs n) :
    Traced cs n (Build.each f xs) := by
  induction xs with
  | nil => exact traced_pure []
  | cons x xs ih =>
    rw [List.forall_mem_cons] at each
    exact traced_bind each.1 fun _ _ => traced_bind (ih each.2) fun _ _ => traced_pure _

end Builder

/-! ## Types and declarations

A type has two ranges, with its quantifiers and without them; either may be the one a violation is
reported at, and both end at the position up to which the type was read. -/

namespace Build

theorem traced_plainType {whole inner : Range} {name : String} {ps : List Ty} {nonempty : Bool}
    (range : whole.Between 0 n) : Traced cs n (plainType whole inner name ps nonempty) := by
  unfold plainType
  repeat' split
  all_goals first | exact traced_ok _ | exact traced_violate range (by simp)

theorem traced_types {ts : List Surface.TypeExpr} (each : ∀ t ∈ ts, Traced cs n (type t)) :
    Traced cs n (types ts) := by
  induction ts with
  | nil => exact traced_ok []
  | cons t ts ih =>
    rw [List.forall_mem_cons] at each
    exact traced_bind each.1 fun _ _ => traced_bind (ih each.2) fun _ _ => traced_ok _

theorem traced_type {whole : Range} {name : Surface.Word} {ps : List Surface.TypeExpr}
    {q : Option (Surface.Quantifier × Nat)} (range : whole.Between 0 n)
    (each : ∀ p ∈ ps, Traced cs n (type p)) : Traced cs n (type (.mk whole name ps q)) := by
  rw [type]
  refine traced_bind (traced_types each) fun _ _ => ?_
  cases q with
  | none => exact traced_plainType range
  | some q => exact traced_bind (traced_plainType range) fun _ _ => traced_ok _

/-- A declaration complains of nothing else than its type, its name and its initializer do. -/
theorem traced_decl {d : Surface.Decl} (type : Traced cs n (type d.type))
    (name : d.name.range.Between 0 n)
    (initializer : ∀ σ, d.expr = some σ → Traced cs n (expr rules σ)) :
    Traced cs n (decl rules d) := by
  refine traced_bind type fun _ _ => traced_bind ?_ fun _ _ =>
    traced_bind (traced_checkName rules name) fun _ _ => traced_ok _
  cases given : d.expr with
  | none => exact traced_ok none
  | some σ => exact traced_bind (initializer σ given) fun _ _ => traced_ok _

theorem decl_range {d : Surface.Decl} {D : Decl} (h : decl rules d = .ok D) :
    D.range = d.range := by
  obtain ⟨type, -, h⟩ := bind_eq_ok.1 h
  obtain ⟨e, -, h⟩ := bind_eq_ok.1 h
  obtain ⟨-, -, h⟩ := bind_eq_ok.1 h
  cases h
  rfl

/-- A declaration lies between two positions, and so does what is wrong with it. -/
abbrev DeclUpto (cs : List Char) (rules : Rules) : Nat → Nat → Surface.Decl → Prop :=
  Contained cs Surface.Decl.range (decl rules)

/-- Declarations that are built lie where they are written. -/
theorem decls_upto {ds : List Surface.Decl} {Ds : List Decl}
    (each : ∀ d ∈ ds, DeclUpto cs rules a n d) (h : ds.mapM (decl rules) = .ok Ds) :
    ∀ D ∈ Ds, D.range.Between 0 n :=
  forall_of_forall₂ (mapM_eq_ok.1 h) fun d hd _ hD =>
    decl_range hD ▸ (each d hd).1.upto (Nat.le_refl n)

theorem traced_decls {ds : List Surface.Decl} (each : ∀ d ∈ ds, DeclUpto cs rules a n d) :
    Traced cs n (ds.mapM (decl rules)) :=
  traced_mapM fun d hd => (each d hd).2

theorem traced_outputs {ds : List Surface.Decl} (each : ∀ d ∈ ds, DeclUpto cs rules a n d) :
    Traced cs n (outputs rules ds) := by
  refine traced_bind (traced_decls each) fun Ds h => traced_bind ?_ fun _ _ => traced_ok _
  refine traced_forM fun D hD => ?_
  unfold checkBound
  split
  · exact traced_violate (decls_upto each h D hD) (by simp)
  · exact traced_ok ()

end Build

namespace Parser

open Build

/-- A type lies between two positions, and so does what is wrong with it. -/
abbrev TypeUpto (cs : List Char) : Nat → Nat → Surface.TypeExpr → Prop :=
  Contained cs Surface.TypeExpr.range type

theorem advances_quantifier :
    Advances fe cs b (quantifier fe.next) fun c q => ∀ x ∈ q, x.2.range.Between b c := by
  have given : ∀ q : Surface.Quantifier,
      Advances fe cs b (do return some (q, ← shift fe.next Expect.afterType)) fun c x =>
        ∀ y ∈ x, y.2.range.Between b c :=
    fun q => advances_bind advances_shift fun _ _ _ ht =>
      advances_pure (by rintro _ ⟨⟩; exact ht)
  refine advances_look looks_peek fun _ => ?_
  split
  · exact given _
  · exact given _
  · exact given _
  · exact advances_pure nofun

section Types

variable {p : Parser Surface.TypeExpr} (inner : ∀ b, Advances fe cs b p (TypeUpto cs b))

include inner

/-- The parameters of a type end where its brackets do, or else where its name does. -/
theorem advances_typeParameters {name : Surface.Word} (here : name.range.Between a b) :
    Advances fe cs b (typeParameters fe.next p name) fun c x =>
      (∀ t ∈ x.1, Traced cs c (type t)) ∧ name.range.start ≤ x.2 ∧ x.2 ≤ c := by
  have second : ∀ b, Advances fe cs b (secondParameter fe.next p) fun c ts =>
      ∀ t ∈ ts, Traced cs c (type t) :=
    fun b => advances_bind advances_optionalSymbol fun _ c _ _ => advances_ite
      (advances_bind (inner c) fun _ _ _ ht => advances_pure (by simpa using ht.2))
      (advances_pure (by simp))
  have ordered := here.ordered
  have stop := here.stop
  refine advances_bind advances_optionalSymbol fun _ c bc _ => advances_ite ?brackets ?bare
  case brackets =>
    refine advances_bind (inner c) fun first d cd hfirst => advances_bind (second d)
      fun more e de hmore => advances_bind advances_take fun close f ef hclose =>
        advances_pure ⟨?_, ?_, hclose.stop⟩
    · exact List.forall_mem_cons.2 ⟨hfirst.2.widen (Nat.le_trans de ef),
        fun t ht => (hmore t ht).widen ef⟩
    · have behind : e ≤ close.start := hclose.start
      have ends : close.start ≤ close.stop := hclose.ordered
      show name.range.start ≤ close.stop
      omega
  case bare =>
    exact advances_pure ⟨by simp, ordered, Nat.le_trans stop bc⟩

end Types

theorem advances_typeUpTo (n : Nat) :
    Advances fe cs b (typeUpTo fe.next n) (TypeUpto cs b) := by
  induction n generalizing b with
  | zero => exact advances_reject
  | succ n ih =>
    refine advances_bind advances_takeName fun name c bc hname =>
      advances_bind (advances_typeParameters (fun _ => ih) hname) fun x d cd hx =>
        advances_bind advances_quantifier fun q e de hq => ?_
    obtain ⟨ps, stop⟩ := x
    obtain ⟨hps, start, hstop⟩ := hx
    have params : ∀ t ∈ ps, Traced cs e (type t) := fun t ht => (hps t ht).widen de
    cases q with
    | none =>
      -- without a quantifier the type ends with its brackets, or with its name
      have range : Range.Between b e ⟨name.range.start, stop⟩ :=
        ⟨hname.start, start, Nat.le_trans hstop de⟩
      exact advances_pure ⟨range, traced_type (range.upto (Nat.le_refl e)) params⟩
    | some q =>
      have range := hname.join (hq q rfl) cd
      exact advances_pure ⟨range, traced_type (range.upto (Nat.le_refl e)) params⟩

theorem advances_typeExpr : Advances fe cs b (typeExpr fe.next) (TypeUpto cs b) :=
  advances_look looks_remaining fun n => advances_typeUpTo n

theorem advances_initialized {type : Surface.TypeExpr} {name : Surface.Word} {m : Nat}
    (htype : TypeUpto cs a m type) (hname : name.range.Between m b) :
    Advances fe cs b (initialized fe.next type name) (DeclUpto cs rules a) := by
  refine advances_bind advances_take fun _ c bc _ =>
    advances_bind (advances_expr rules) fun e d cd he => advances_pure ?_
  have behind := hname.start
  have ordered := hname.ordered
  have stop := hname.stop
  exact ⟨htype.1.join he.1 (by omega), traced_decl (htype.2.widen (by omega))
    (hname.upto (by omega)) (by rintro _ ⟨⟩; exact he.2)⟩

/-- A declaration that has no initializer ends with its name. -/
theorem advances_unbound {type : Surface.TypeExpr} {name : Surface.Word} {m : Nat}
    (htype : TypeUpto cs a m type) (hname : name.range.Between m b) :
    Advances fe cs b (pure ⟨⟨type.range.start, name.range.stop⟩, type, name, none⟩)
      (DeclUpto cs rules a) := by
  have start := hname.start
  have ordered := hname.ordered
  have stop := hname.stop
  exact advances_pure ⟨htype.1.join hname (Nat.le_refl m),
    traced_decl (htype.2.widen (by omega)) (hname.upto (Nat.le_refl b)) nofun⟩

theorem advances_unboundDecl (rules : Rules) :
    Advances fe cs b (unboundDecl fe.next) (DeclUpto cs rules b) :=
  advances_bind advances_typeExpr fun _ _ _ htype =>
    advances_bind advances_takeName fun _ _ _ hname => advances_unbound htype hname

theorem advances_boundDecl (rules : Rules) :
    Advances fe cs b (boundDecl fe.next) (DeclUpto cs rules b) :=
  advances_bind advances_typeExpr fun _ _ _ htype =>
    advances_bind advances_takeName fun _ _ _ hname => advances_initialized htype hname

theorem advances_anyDecl (rules : Rules) :
    Advances fe cs b (anyDecl fe.next) (DeclUpto cs rules b) :=
  advances_bind advances_typeExpr fun _ _ _ htype =>
    advances_bind advances_takeName fun _ _ _ hname => advances_look (looks_sees _) fun _ =>
      advances_ite (advances_initialized htype hname) (advances_unbound htype hname)

theorem advances_declSection (rules : Rules) (k : Keyword) :
    Advances fe cs b (declSection fe.next k) fun c x =>
      x.1.Between b c ∧ ∀ d ∈ x.2, DeclUpto cs rules b c d := by
  have wide : Wide (DeclUpto cs rules) := wide_contained _ _
  refine advances_bind advances_take fun start c bc hstart => advances_bind advances_take
    fun _ d cd _ => advances_bind (advances_many wide fun _ => advances_anyDecl rules)
      fun ds e de hds => advances_bind advances_take fun close f ef hclose => advances_pure ?_
  exact ⟨hstart.join hclose (by omega), fun x hx => wide (hds x hx) (Nat.le_trans bc cd) ef⟩

end Parser

/-! ## Meta sections

Meta values nest like expressions, and `value` parses those inside a rule. What can be wrong with
them are their strings, their numbers and keys that occur again. -/

namespace Build

/-- An entry of a meta object lies between two positions, and so does what is wrong with it. -/
abbrev EntryUpto (cs : List Char) (N : CharacterNames) : Nat → Nat → Surface.MetaMember → Prop :=
  Contained cs (fun m => m.2.1) fun m => metaValue N m.2.2

theorem traced_metaItems {ms : List Surface.Meta} (each : ∀ m ∈ ms, Traced cs n (metaValue N m)) :
    Traced cs n (metaItems N ms) := by
  induction ms with
  | nil => exact traced_ok []
  | cons m ms ih =>
    rw [List.forall_mem_cons] at each
    exact traced_bind each.1 fun _ _ => traced_bind (ih each.2) fun _ _ => traced_ok _

theorem traced_metaEntries {ms : List Surface.MetaMember}
    (each : ∀ m ∈ ms, EntryUpto cs N a n m) : Traced cs n (metaEntries N ms) := by
  induction ms with
  | nil => exact traced_ok []
  | cons m ms ih =>
    rw [List.forall_mem_cons] at each
    exact traced_bind each.1.2 fun _ _ => traced_bind (ih each.2) fun _ _ => traced_ok _

theorem metaEntries_upto {ms : List Surface.MetaMember} {es : List (String × Meta × Range)}
    (each : ∀ m ∈ ms, EntryUpto cs N a n m) (h : metaEntries N ms = .ok es) :
    ∀ e ∈ es, e.2.2.Between 0 n := by
  induction ms generalizing es with
  | nil =>
    cases h
    simp
  | cons m ms ih =>
    rw [List.forall_mem_cons] at each
    obtain ⟨key, r, m⟩ := m
    obtain ⟨M, -, rest, hrest, rfl⟩ := by simpa [metaEntries] using h
    exact List.forall_mem_cons.2 ⟨each.1.1.upto (Nat.le_refl n), ih each.2 hrest⟩

/-- The entries of an object, built and then checked to have different keys. -/
theorem traced_distinctEntries {ms : List Surface.MetaMember}
    {make : List (String × Meta) → Checked α} (each : ∀ m ∈ ms, EntryUpto cs N a n m)
    (rest : ∀ entries, Traced cs n (make entries)) :
    Traced cs n (do make (← distinct .repeatedKey [] (← metaEntries N ms))) :=
  traced_bind (traced_metaEntries each) fun _ h =>
    traced_bind (traced_distinct (by simp) _ (metaEntries_upto each h)) fun _ _ => rest _

end Build

namespace Parser

open Build

/-- A meta value lies between two positions, and so does what is wrong with it. -/
abbrev MetaUpto (cs : List Char) (N : CharacterNames) : Nat → Nat → Surface.Meta → Prop :=
  Contained cs Surface.Meta.range (metaValue N)

section Values

variable {value : Parser Surface.Meta} (inner : ∀ b, Advances fe cs b value (MetaUpto cs N b))

include inner

theorem advances_metaMember : Advances fe cs b (metaMember fe.next value) (EntryUpto cs N b) :=
  advances_bind advances_takeName fun _ _ _ hname => advances_bind advances_take fun _ d cd _ =>
    advances_bind (inner d) fun _ _ _ hm => advances_pure ⟨hname.join hm.1 cd, hm.2⟩

theorem advances_metaMembers :
    Advances fe cs b (metaMembers fe.next value) fun c x =>
      x.1.Between b c ∧ ∀ m ∈ x.2, EntryUpto cs N b c m := by
  have wide : Wide (EntryUpto cs N) := wide_contained _ _
  exact advances_bind advances_take fun _ _ bc hbrace =>
    advances_bind (advances_looseList wide fun _ => advances_metaMember inner) fun _ _ cd hms =>
      advances_bind advances_take fun _ _ de hclose => advances_pure
        ⟨hbrace.join hclose cd, fun m hm => wide (hms m hm) bc de⟩

theorem advances_metaArray : Advances fe cs b (metaArray fe.next value) (MetaUpto cs N b) :=
  advances_bind advances_take fun _ _ _ hbracket =>
    advances_bind (advances_commaList (wide_contained _ _) inner) fun _ _ cd hms =>
      advances_bind advances_take fun _ _ de hclose => advances_pure ⟨hbracket.join hclose cd,
        traced_bind (traced_metaItems fun m hm => (hms m hm).2.widen de) fun _ _ => traced_ok _⟩

end Values

theorem advances_signedNumber (sign : Surface.Sign) :
    Advances fe cs b (signedNumber fe.next sign) (MetaUpto cs N b) :=
  advances_bind advances_shift fun _ c _ ht => advances_bind advances_takeNumber fun _ d _ hx =>
    advances_pure ⟨ht.join hx.1 (Nat.le_refl c),
      traced_bind (traced_numberValue (hx.1.upto (Nat.le_refl d)) hx.2) fun _ _ => traced_ok _⟩

/-- A meta value that cannot be wrong is a token. -/
theorem advances_metaLiteral (make : Range → Surface.Meta) (range : ∀ r, (make r).range = r)
    (right : ∀ n r, Traced cs n (metaValue N (make r))) :
    Advances fe cs b (do return make (← shift fe.next Expect.afterMeta).range) (MetaUpto cs N b) :=
  advances_bind advances_shift fun t c _ ht => advances_pure
    ⟨(range t.range).symm ▸ ht, right c t.range⟩

theorem advances_metaUpTo (n : Nat) : Advances fe cs b (metaUpTo fe.next n) (MetaUpto cs N b) := by
  induction n generalizing b with
  | zero => exact advances_reject
  | succ n ih =>
    refine advances_look looks_peek fun _ => ?_
    split
    · exact advances_metaLiteral .null (fun _ => rfl) fun _ _ => traced_ok _
    · exact advances_metaLiteral (.boolean · true) (fun _ => rfl) fun _ _ => traced_ok _
    · exact advances_metaLiteral (.boolean · false) (fun _ => rfl) fun _ _ => traced_ok _
    · exact advances_signedNumber _
    · exact advances_signedNumber _
    · exact advances_bind advances_takeNumber fun _ c _ hx => advances_pure ⟨hx.1,
        traced_bind (traced_numberValue (hx.1.upto (Nat.le_refl c)) hx.2) fun _ _ => traced_ok _⟩
    · exact advances_bind advances_takeQuoted fun _ c _ hq => advances_pure ⟨hq,
        traced_bind (traced_decodeText N (hq.upto (Nat.le_refl c)) _) fun _ _ => traced_ok _⟩
    · exact advances_metaArray fun _ => ih
    · exact advances_bind (advances_metaMembers fun _ => ih) fun _ _ _ hx => advances_pure
        ⟨hx.1, traced_distinctEntries hx.2 fun _ => traced_ok _⟩
    · exact advances_reject

theorem advances_metaSection (k : Keyword) (kind : Surface.MetaKind) :
    Advances fe cs b (metaSection fe.next k kind)
      (Contained cs Surface.MetaSection.range (Build.metaSection N) b) := by
  refine advances_bind advances_take fun start c bc hstart => advances_look looks_remaining
    fun n =>
      advances_bind (advances_metaMembers (N := N) fun _ => advances_metaUpTo n) fun x d cd hx =>
      advances_pure ⟨hstart.join hx.1 (Nat.le_refl c), ?_⟩
  exact traced_distinctEntries hx.2 fun _ => traced_ok _

end Parser

/-! ## Sections

Sections of tasks and workflows are collected from items that may come in any order. A section that
occurs again is reported at its own range, so all that is asked of an item is `BlockUpto`. -/

namespace Build

/-- A section that is an item lies in the first `n` characters. -/
def BlockUpto (n : Nat) : Item α → Prop
  | .block r _ => r.Between 0 n
  | .other _ => True

theorem BlockUpto.widen {m : Nat} {i : Item α} (h : BlockUpto m i) (le : m ≤ n) :
    BlockUpto n i := by
  cases i with
  | block r s => exact Range.Between.upto h le
  | other x => trivial

theorem sectionsOf_upto {items : List (Item α)} (each : ∀ i ∈ items, BlockUpto n i) :
    ∀ s ∈ sectionsOf items, s.1.Between 0 n := by
  intro s hs
  obtain ⟨i, hi, eq⟩ := List.mem_filterMap.1 hs
  cases i with
  | block r t =>
    cases eq
    exact each _ hi
  | other x => cases eq

/-- The section that occurs again is among the sections. -/
theorem repeatedAfter_upto {seen : List SectionKind} {ss : List (Range × Section)}
    (each : ∀ s ∈ ss, s.1.Between 0 n) {r : Range} {kind : SectionKind}
    (h : repeatedAfter seen ss = some (r, kind)) : r.Between 0 n := by
  induction ss generalizing seen with
  | nil => cases h
  | cons s ss ih =>
    rw [List.forall_mem_cons] at each
    unfold repeatedAfter at h
    split at h
    · cases h
      exact each.1
    · exact ih each.2 h

theorem traced_checkSections (owner : String) {items : List (Item α)}
    (each : ∀ i ∈ items, BlockUpto n i) : Traced cs n (checkSections owner items) := by
  unfold checkSections
  split
  · rename_i r kind again
    exact traced_violate (repeatedAfter_upto (sectionsOf_upto each) again) (by simp)
  · exact traced_ok ()

end Build

/-! ## Tasks

A task is built from what is before its command, the command, and what is behind it. All are traced
up to where the task ends, which is why the facts about items are stated with `widen` lemmas. -/

namespace Build

theorem traced_collectRuntime (done : List (String × Expr))
    (entries : List (Range × String × Expr)) :
    Builder.Traced cs n (collectRuntime done entries) := by
  induction entries generalizing done with
  | nil => exact Builder.traced_pure done
  | cons entry entries ih =>
    unfold collectRuntime
    split
    · exact Builder.traced_bind (Builder.traced_warn _) fun _ _ => ih _
    · exact ih _

theorem traced_command {c : Surface.Command} (each : ∀ p ∈ c.parts, TracedPart cs rules n p) :
    Builder.Traced cs n (command rules c) := by
  refine Builder.traced_bind (Builder.traced_check (traced_rawParts each)) fun raw _ => ?_
  dsimp only
  split
  · exact Builder.traced_bind (Builder.traced_warn _) fun _ _ => Builder.traced_pure _
  · exact Builder.traced_pure _

/-- An item of a task that is traced, and that lies in the first `n` characters if it is a
section. -/
def TracedTaskItem (cs : List Char) (rules : Rules) (n : Nat) (i : Surface.TaskItem) : Prop :=
  (taskItem rules i).Traced cs n ∧ ∀ I, (taskItem rules i).Gives I → BlockUpto n I

theorem TracedTaskItem.widen {m : Nat} {i : Surface.TaskItem} (h : TracedTaskItem cs rules m i)
    (le : m ≤ n) : TracedTaskItem cs rules n i :=
  ⟨h.1.widen le, fun I hI => (h.2 I hI).widen le⟩

/-- An item that is made of what a check returns. -/
theorem tracedTaskItem_of {i : Surface.TaskItem} {c : Checked α} {make : α → Item Decl}
    (eq : taskItem rules i = do return make (← check c)) (checked : Traced cs n c)
    (placed : ∀ x, BlockUpto n (make x)) : TracedTaskItem cs rules n i := by
  rw [TracedTaskItem, eq]
  refine ⟨Builder.traced_bind (Builder.traced_check checked) fun _ _ => Builder.traced_pure _, ?_⟩
  intro I hI
  obtain ⟨x, -, h⟩ := Builder.gives_bind hI
  cases Builder.gives_pure h
  exact placed x

theorem traced_task {t : Surface.Task} (name : t.name.range.Between 0 n)
    (before : ∀ i ∈ t.before, TracedTaskItem cs rules n i)
    (parts : ∀ p ∈ t.command.parts, TracedPart cs rules n p)
    (behind : ∀ i ∈ t.behind, TracedTaskItem cs rules n i) :
    Builder.Traced cs n (task rules t) := by
  refine Builder.traced_bind (Builder.traced_each fun i hi => (before i hi).1) fun Is hIs =>
    Builder.traced_bind (traced_command parts) fun _ _ =>
      Builder.traced_bind (Builder.traced_each fun i hi => (behind i hi).1) fun Js hJs =>
        Builder.traced_bind (Builder.traced_check (traced_checkName rules name)) fun _ _ =>
          Builder.traced_check (traced_bind (traced_checkSections _ ?_) fun _ _ => traced_ok _)
  exact List.forall_mem_append.2
    ⟨forall_of_forall₂ (Builder.gives_each hIs) fun i hi => (before i hi).2,
      forall_of_forall₂ (Builder.gives_each hJs) fun i hi => (behind i hi).2⟩

/-- A task keeps its range. -/
theorem task_range {t : Surface.Task} {T : Task} (h : (task rules t).Gives T) :
    T.range = t.range := by
  obtain ⟨_, -, h⟩ := Builder.gives_bind h
  obtain ⟨_, -, h⟩ := Builder.gives_bind h
  obtain ⟨_, -, h⟩ := Builder.gives_bind h
  obtain ⟨_, -, h⟩ := Builder.gives_bind h
  obtain ⟨_, -, h⟩ := bind_eq_ok.1 (Builder.gives_check h)
  cases h
  rfl

end Build

namespace Parser

open Build

theorem advances_runtimeSection (rules : Rules) :
    Advances fe cs b (runtimeSection fe.next) fun c i => TracedTaskItem cs rules c i := by
  have entry : ∀ b, Advances fe cs b (runtimeEntry fe.next) fun c e =>
      Traced cs c (Build.runtimeEntry rules e) :=
    fun b => advances_bind advances_takeName fun _ _ _ _ => advances_bind advances_take
      fun _ _ _ _ => advances_bind (advances_expr rules) fun _ _ _ he =>
        advances_pure (traced_bind he.2 fun _ _ => traced_ok _)
  have wide : Wide fun _ c e => Traced cs c (Build.runtimeEntry rules e) :=
    fun _ _ _ _ _ h _ cd => h.widen cd
  -- what is read before the last token is traced up to there, so each fact is widened to the end
  refine advances_bind advances_take fun start c bc hstart => advances_bind advances_take
    fun _ d cd _ => advances_bind (advances_looseList wide entry) fun es e de hes =>
      advances_bind advances_take fun close f ef hclose => advances_pure ⟨?_, ?_⟩
  · exact Builder.traced_bind (Builder.traced_check
      (traced_mapM fun x hx => (hes x hx).widen ef)) fun _ _ =>
        Builder.traced_bind (traced_collectRuntime _ _) fun _ _ => Builder.traced_pure _
  -- the section is from its keyword to its closing brace
  · intro I hI
    obtain ⟨_, -, h⟩ := Builder.gives_bind hI
    obtain ⟨_, -, h⟩ := Builder.gives_bind h
    cases Builder.gives_pure h
    exact (hstart.join hclose (by omega)).upto (Nat.le_refl f)

theorem advances_commandParts {style : CommandStyle} {opener : Terminal} :
    Advances fe cs b (commandParts fe.next style opener) fun c ps =>
      ∀ p ∈ ps, TracedPart cs rules c p :=
  advances_look looks_remaining fun n =>
    advances_partsUpTo (advances_upTo (2 * n)).2 (advances_upTo (2 * n)).1 (2 * n)

theorem advances_command (rules : Rules) :
    Advances fe cs b (command fe.next) fun c C => ∀ p ∈ C.parts, TracedPart cs rules c p := by
  refine advances_bind advances_take fun _ c _ _ => advances_look (looks_sees _) fun _ =>
    advances_ite ?heredoc ?braces
  case heredoc =>
    exact advances_bind advances_shift fun _ d _ _ => advances_bind advances_commandParts
      fun _ e _ hps => advances_bind advances_take fun _ f ef _ =>
        advances_pure fun p hp => (hps p hp).widen ef
  case braces =>
    exact advances_bind advances_take fun _ d _ _ => advances_bind advances_commandParts
      fun _ e _ hps => advances_bind advances_take fun _ f ef _ =>
        advances_pure fun p hp => (hps p hp).widen ef

theorem advances_taskItem (rules : Rules) :
    Advances fe cs b (taskItem fe.next) fun c i => TracedTaskItem cs rules c i := by
  refine advances_look looks_peek fun _ => ?_
  split
  · exact advances_bind (advances_declSection rules _) fun _ c _ hx => advances_pure
      (tracedTaskItem_of rfl (traced_decls hx.2) fun _ => hx.1.upto (Nat.le_refl c))
  · exact advances_bind (advances_declSection rules _) fun _ c _ hx => advances_pure
      (tracedTaskItem_of rfl (traced_outputs hx.2) fun _ => hx.1.upto (Nat.le_refl c))
  · exact advances_bind (advances_metaSection _ _) fun _ c _ hs => advances_pure
      (tracedTaskItem_of rfl hs.2 fun _ => hs.1.upto (Nat.le_refl c))
  · exact advances_bind (advances_metaSection _ _) fun _ c _ hs => advances_pure
      (tracedTaskItem_of rfl hs.2 fun _ => hs.1.upto (Nat.le_refl c))
  · exact advances_runtimeSection rules
  · exact advances_bind (advances_boundDecl rules) fun _ _ _ hd => advances_pure
      (tracedTaskItem_of rfl hd.2 fun _ => trivial)

theorem advances_task (rules : Rules) :
    Advances fe cs b (task fe.next) fun c t =>
      t.range.Between b c ∧ (Build.task rules t).Traced cs c := by
  have wide : Wide fun _ c i => TracedTaskItem cs rules c i :=
    fun _ _ _ _ _ h _ cd => h.widen cd
  refine advances_bind advances_take fun start c bc hstart => advances_bind advances_takeName
    fun name d cd hname => advances_bind advances_take fun _ e de _ =>
      advances_bind (advances_many wide fun _ => advances_taskItem rules) fun before f ef hbefore =>
        advances_bind (advances_command rules) fun C g fg hparts => advances_bind
          (advances_many wide fun _ => advances_taskItem rules) fun behind h gh hbehind =>
            advances_bind advances_take fun close i hi hclose => advances_pure ⟨?_, ?_⟩
  · exact hstart.join hclose (by omega)
  · exact traced_task (hname.upto (by omega)) (fun x hx => (hbefore x hx).widen (by omega))
      (fun p hp => (hparts p hp).widen (by omega)) fun x hx => (hbehind x hx).widen hi

end Parser

/-! ## Workflows

The nodes of a workflow nest, by a bound on the nesting as for expressions; `node` parses those
inside a rule. -/

namespace Build

theorem traced_callInput {i : Surface.CallInput} (name : i.name.range.Between 0 n)
    (initializer : ∀ σ, i.expr = some σ → Traced cs n (expr rules σ)) :
    Traced cs n (callInput rules i) := by
  refine traced_bind ?_ fun _ _ => traced_bind (traced_checkName rules name) fun _ _ =>
    traced_ok _
  cases given : i.expr with
  | none => exact traced_ok none
  | some σ => exact traced_bind (initializer σ given) fun _ _ => traced_ok _

theorem traced_call {c : Surface.Call} (name : ∀ w ∈ c.givenName, w.range.Between 0 n)
    (each : ∀ i ∈ c.inputs, Traced cs n (callInput rules i)) : Traced cs n (call rules c) := by
  refine traced_bind (traced_mapM each) fun _ _ => traced_bind ?_ fun _ _ => traced_ok _
  cases given : c.givenName with
  | none => exact traced_ok ()
  | some w => exact traced_checkName rules (name w given)

theorem traced_workflowNodes {ns : List Surface.WorkflowNode}
    (each : ∀ x ∈ ns, Traced cs n (workflowNode rules x)) :
    Traced cs n (workflowNodes rules ns) := by
  induction ns with
  | nil => exact traced_ok []
  | cons x ns ih =>
    rw [List.forall_mem_cons] at each
    exact traced_bind each.1 fun _ _ => traced_bind (ih each.2) fun _ _ => traced_ok _

/-- An item of a workflow that is traced, and that lies in the first `n` characters if it is a
section. -/
def TracedWorkflowItem (cs : List Char) (rules : Rules) (n : Nat) (i : Surface.WorkflowItem) :
    Prop :=
  Traced cs n (workflowItem rules i) ∧ ∀ I, workflowItem rules i = .ok I → BlockUpto n I

theorem TracedWorkflowItem.widen {m : Nat} {i : Surface.WorkflowItem}
    (h : TracedWorkflowItem cs rules m i) (le : m ≤ n) : TracedWorkflowItem cs rules n i :=
  ⟨h.1.widen le, fun I hI => (h.2 I hI).widen le⟩

/-- An item that is made of what a check returns. -/
theorem tracedWorkflowItem_of {i : Surface.WorkflowItem} {c : Checked α}
    {make : α → Item WorkflowNode} (eq : workflowItem rules i = do return make (← c))
    (checked : Traced cs n c) (placed : ∀ x, BlockUpto n (make x)) :
    TracedWorkflowItem cs rules n i := by
  rw [TracedWorkflowItem, eq]
  refine ⟨traced_bind checked fun _ _ => traced_ok _, ?_⟩
  intro I hI
  obtain ⟨x, -, h⟩ := bind_eq_ok.1 hI
  cases h
  exact placed x

theorem traced_workflow {w : Surface.Workflow} (name : w.name.range.Between 0 n)
    (each : ∀ i ∈ w.items, TracedWorkflowItem cs rules n i) :
    Traced cs n (workflow rules w) := by
  refine traced_bind (traced_mapM fun i hi => (each i hi).1) fun Is hIs =>
    traced_bind (traced_checkName rules name) fun _ _ =>
      traced_bind (traced_checkSections _ ?_) fun _ _ => traced_ok _
  exact forall_of_forall₂ (mapM_eq_ok.1 hIs) fun i hi => (each i hi).2

/-- A workflow keeps its range. -/
theorem workflow_range {w : Surface.Workflow} {W : Workflow} (h : workflow rules w = .ok W) :
    W.range = w.range := by
  obtain ⟨_, -, h⟩ := bind_eq_ok.1 h
  obtain ⟨_, -, h⟩ := bind_eq_ok.1 h
  obtain ⟨_, -, h⟩ := bind_eq_ok.1 h
  cases h
  rfl

end Build

namespace Parser

open Build

theorem advances_callInput (rules : Rules) :
    Advances fe cs b (callInput fe.next) fun c i => Traced cs c (Build.callInput rules i) := by
  refine advances_bind advances_takeName fun name c _ hname =>
    advances_bind advances_optionalSymbol fun _ d cd _ => advances_ite ?given ?bare
  case given =>
    exact advances_bind (advances_expr rules) fun e f df he => advances_pure
      (traced_callInput (hname.upto (by omega)) (by rintro _ ⟨⟩; exact he.2))
  case bare => exact advances_pure (traced_callInput (hname.upto cd) nofun)

theorem advances_calleeUpTo (n : Nat) :
    Advances fe cs b (calleeUpTo fe.next n) fun _ _ => True := by
  induction n generalizing b with
  | zero => exact advances_pure trivial
  | succ n ih =>
    exact advances_bind advances_optionalSymbol fun _ _ _ _ => advances_ite
      (advances_bind advances_takeName fun _ _ _ _ => advances_bind ih fun _ _ _ _ =>
        advances_pure trivial)
      (advances_pure trivial)

/-- A name that may be given behind a keyword. -/
theorem advances_givenName {k : Keyword} {after : Expect} :
    Advances fe cs b (do
      if ← sees (.keyword k) then
        let _ ← shift fe.next Expect.aName
        return some (← takeName fe.next after)
      else return none) fun c w => ∀ x ∈ w, x.range.Between b c :=
  advances_look (looks_sees _) fun _ => advances_ite
    (advances_bind advances_shift fun _ _ bc _ => advances_bind advances_takeName
      fun _ d _ hname => advances_pure (by rintro _ ⟨⟩; exact hname.widen bc (Nat.le_refl d)))
    (advances_pure nofun)

theorem advances_callInputs (rules : Rules) (stop : Nat) :
    Advances fe cs b (callInputs fe.next stop) fun c x =>
      ∀ i ∈ x.1, Traced cs c (Build.callInput rules i) := by
  have wide : Wide fun _ c i => Traced cs c (Build.callInput rules i) :=
    fun _ _ _ _ _ h _ cd => h.widen cd
  have inputs : ∀ b, Advances fe cs b (do
      let inputs ← commaList fe.next .braceClose Expect.entries (callInput fe.next)
      let close ← takeSymbol fe.next .braceClose Expect.workflowBody
      return (inputs, close.stop)) fun c x => ∀ i ∈ x.1, Traced cs c (Build.callInput rules i) :=
    fun b => advances_bind (advances_commaList wide fun _ => advances_callInput rules)
      fun _ _ _ his => advances_bind advances_take fun _ _ cd _ =>
        advances_pure fun i hi => (his i hi).widen cd
  refine advances_bind advances_optionalSymbol fun _ c _ _ => advances_ite
    (advances_look (looks_sees _) fun labelled => ?_) (advances_pure (by simp))
  split
  · exact advances_bind advances_shift fun _ _ _ _ => advances_bind advances_take
      fun _ d _ _ => inputs d
  · exact inputs c

theorem advances_call (rules : Rules) :
    Advances fe cs b (call fe.next) fun c x => Traced cs c (Build.call rules x) := by
  refine advances_bind advances_take fun _ _ _ _ => advances_bind advances_takeName
    fun _ _ _ _ => advances_look looks_remaining fun n =>
      advances_bind (advances_calleeUpTo n) fun _ d _ _ =>
        advances_bind advances_givenName fun name e de hname =>
          advances_bind (advances_callInputs rules _) fun x f ef his => advances_pure ?_
  exact traced_call (fun w hw => (hname w hw).upto ef) his

section Nested

variable {node : Parser Surface.WorkflowNode}
  (inner : ∀ b, Advances fe cs b node fun c x => Traced cs c (Build.workflowNode rules x))

include inner

theorem advances_nestedBody :
    Advances fe cs b (nestedBody fe.next node) fun c x =>
      Traced cs c (Build.workflowNodes rules x.1) := by
  have wide : Wide fun _ c x => Traced cs c (Build.workflowNode rules x) :=
    fun _ _ _ _ _ h _ cd => h.widen cd
  exact advances_bind advances_take fun _ _ _ _ =>
    advances_bind (advances_many wide inner) fun _ _ _ hns =>
      advances_bind advances_take fun _ _ cd _ =>
        advances_pure ((traced_workflowNodes hns).widen cd)

theorem advances_scatter :
    Advances fe cs b (scatter fe.next node) fun c x =>
      Traced cs c (Build.workflowNode rules x) := by
  refine advances_bind advances_take fun _ _ _ _ => advances_bind advances_take fun _ _ _ _ =>
    advances_bind advances_takeName fun item c _ hitem => advances_bind advances_take
      fun _ d cd _ => advances_bind (advances_expr rules) fun e f df he =>
        advances_bind advances_take fun _ g fg _ =>
          advances_bind (advances_nestedBody inner) fun body h gh hbody => advances_pure ?_
  exact traced_bind (he.2.widen (by omega)) fun _ _ => traced_bind hbody fun _ _ =>
    traced_bind (traced_checkName rules (hitem.upto (by omega))) fun _ _ => traced_ok _

theorem advances_conditional :
    Advances fe cs b (conditional fe.next node) fun c x =>
      Traced cs c (Build.workflowNode rules x) := by
  refine advances_bind advances_take fun _ _ _ _ => advances_bind advances_take fun _ _ _ _ =>
    advances_bind (advances_expr rules) fun e c _ he => advances_bind advances_take
      fun _ d cd _ => advances_bind (advances_nestedBody inner) fun body f df hbody =>
        advances_pure ?_
  exact traced_bind (he.2.widen (by omega)) fun _ _ => traced_bind hbody fun _ _ => traced_ok _

end Nested

theorem advances_nodeUpTo (rules : Rules) (n : Nat) :
    Advances fe cs b (nodeUpTo fe.next n) fun c x =>
      Traced cs c (Build.workflowNode rules x) := by
  induction n generalizing b with
  | zero => exact advances_reject
  | succ n ih =>
    refine advances_look looks_peek fun _ => ?_
    split
    · exact advances_bind (advances_call rules) fun _ _ _ hc => advances_pure
        (traced_bind hc fun _ _ => traced_ok _)
    · exact advances_scatter fun _ => ih
    · exact advances_conditional fun _ => ih
    · exact advances_bind (advances_boundDecl rules) fun _ _ _ hd => advances_pure
        (traced_bind hd.2 fun _ _ => traced_ok _)

theorem advances_workflowItem (rules : Rules) :
    Advances fe cs b (workflowItem fe.next) fun c i => TracedWorkflowItem cs rules c i := by
  refine advances_look looks_peek fun _ => ?_
  split
  · exact advances_bind (advances_declSection rules _) fun _ c _ hx => advances_pure
      (tracedWorkflowItem_of rfl (traced_decls hx.2) fun _ => hx.1.upto (Nat.le_refl c))
  · exact advances_bind (advances_declSection rules _) fun _ c _ hx => advances_pure
      (tracedWorkflowItem_of rfl (traced_outputs hx.2) fun _ => hx.1.upto (Nat.le_refl c))
  · exact advances_bind (advances_metaSection _ _) fun _ c _ hs => advances_pure
      (tracedWorkflowItem_of rfl hs.2 fun _ => hs.1.upto (Nat.le_refl c))
  · exact advances_bind (advances_metaSection _ _) fun _ c _ hs => advances_pure
      (tracedWorkflowItem_of rfl hs.2 fun _ => hs.1.upto (Nat.le_refl c))
  · exact advances_look looks_remaining fun n => advances_bind (advances_nodeUpTo rules n)
      fun _ _ _ hx => advances_pure (tracedWorkflowItem_of rfl hx fun _ => trivial)

theorem advances_workflow (rules : Rules) :
    Advances fe cs b (workflow fe.next) (Contained cs Surface.Workflow.range
      (Build.workflow rules) b) := by
  have wide : Wide fun _ c i => TracedWorkflowItem cs rules c i :=
    fun _ _ _ _ _ h _ cd => h.widen cd
  refine advances_bind advances_take fun start c bc hstart => advances_bind advances_takeName
    fun name d cd hname => advances_bind advances_take fun _ e de _ =>
      advances_bind (advances_many wide fun _ => advances_workflowItem rules)
        fun items f ef hitems => advances_bind advances_take fun close g fg hclose =>
          advances_pure ⟨hstart.join hclose (by omega), ?_⟩
  exact traced_workflow (hname.upto (by omega)) fun i hi => (hitems i hi).widen fg

end Parser

/-! ## Elements

Each kind of element keeps its range when it is built. That matters to `traced_assembleDocument`: a
version in the wrong place is reported at the range of the element, not at one of its tokens. -/

namespace Build

theorem traced_importAlias {x : Surface.Alias} (name : x.target.range.Between 0 n) :
    Traced cs n (importAlias rules x) :=
  traced_bind (traced_checkName rules name) fun _ _ => traced_ok _

/-- An alias keeps its range. -/
theorem importAlias_range {x : Surface.Alias} {y : String × String × Range}
    (h : importAlias rules x = .ok y) : y.2.2 = x.range := by
  obtain ⟨_, -, h⟩ := bind_eq_ok.1 h
  cases h
  rfl

theorem traced_importDoc {i : Surface.Import} (range : i.range.Between 0 n)
    (uri : i.uri.range.Between 0 n)
    (each : ∀ x ∈ i.aliases, Contained cs Surface.Alias.range (importAlias rules) a n x) :
    Traced cs n (importDoc rules i) := by
  refine traced_bind (traced_decodeText rules.names uri _) fun _ _ =>
    traced_bind (traced_mapM fun x hx => (each x hx).2) fun aliases h => ?_
  dsimp only
  split
  · exact traced_violate range (by simp)
  · refine traced_bind (traced_distinct (by simp) _ ?_) fun _ _ => traced_ok _
    exact forall_of_forall₂ (mapM_eq_ok.1 h) fun x hx _ hy =>
      importAlias_range hy ▸ (each x hx).1.upto (Nat.le_refl n)

/-- An import keeps its range. -/
theorem importDoc_range {i : Surface.Import} {I : Import} (h : importDoc rules i = .ok I) :
    I.range = i.range := by
  obtain ⟨_, -, h⟩ := bind_eq_ok.1 h
  obtain ⟨_, -, h⟩ := bind_eq_ok.1 h
  dsimp only at h
  split at h
  · cases h
  · obtain ⟨_, -, h⟩ := bind_eq_ok.1 h
    cases h
    rfl

theorem traced_checkMembers (struct : String) (seen : List String) {ds : List Decl}
    (each : ∀ d ∈ ds, d.range.Between 0 n) : Traced cs n (checkMembers struct seen ds) := by
  induction ds generalizing seen with
  | nil => exact traced_ok ()
  | cons d ds ih =>
    rw [List.forall_mem_cons] at each
    unfold checkMembers
    split
    · exact traced_violate each.1 (by simp)
    · exact ih _ each.2

theorem traced_structDef {s : Surface.StructDef} (name : s.name.range.Between 0 n)
    (each : ∀ d ∈ s.members, DeclUpto cs rules a n d) : Traced cs n (structDef rules s) :=
  traced_bind (traced_decls each) fun _ h => traced_bind (traced_checkName rules name)
    fun _ _ => traced_bind (traced_checkMembers _ _ (decls_upto each h)) fun _ _ => traced_ok _

/-- A struct definition keeps its range. -/
theorem structDef_range {s : Surface.StructDef} {S : StructDef} (h : structDef rules s = .ok S) :
    S.range = s.range := by
  obtain ⟨_, -, h⟩ := bind_eq_ok.1 h
  obtain ⟨_, -, h⟩ := bind_eq_ok.1 h
  obtain ⟨_, -, h⟩ := bind_eq_ok.1 h
  cases h
  rfl

theorem traced_version {r : Range} (range : r.Between 0 n) (identifier : String) :
    Traced cs n (version r identifier) := by
  unfold version
  split
  · exact traced_ok _
  · exact traced_violate range (by simp)

/-- Where an element of a document is. -/
def topRange : TopLevel → Range
  | .version v => v.range
  | .element e => e.range

/-- An element of a document that is traced, and lies in the first `n` characters. -/
def TracedElement (cs : List Char) (rules : Rules) (n : Nat) (x : Surface.Element) : Prop :=
  (element rules x).Traced cs n ∧ ∀ X, (element rules x).Gives X → (topRange X).Between 0 n

theorem TracedElement.widen {m : Nat} {x : Surface.Element} (h : TracedElement cs rules m x)
    (le : m ≤ n) : TracedElement cs rules n x :=
  ⟨h.1.widen le, fun X hX => (h.2 X hX).upto le⟩

/-- An element that is made of what a builder returns, and that keeps its range. -/
theorem tracedElement_of {x : Surface.Element} {r : Range} {build : Builder α}
    {make : α → TopLevel} (eq : element rules x = do return make (← build))
    (range : r.Between 0 n) (built : build.Traced cs n)
    (kept : ∀ y, build.Gives y → topRange (make y) = r) : TracedElement cs rules n x := by
  rw [TracedElement, eq]
  refine ⟨Builder.traced_bind built fun _ _ => Builder.traced_pure _, ?_⟩
  intro X hX
  obtain ⟨y, hy, h⟩ := Builder.gives_bind hX
  cases Builder.gives_pure h
  rw [kept y hy]
  exact range

/-! ## Documents -/

/-- Adding an element that lies in the first `n` characters keeps all of them there. -/
theorem traced_add (cs : List Char) {x : Assembled} {item : TopLevel}
    (inside : (topRange item).Between 0 n) (body : ∀ e ∈ x.body, e.range.Between 0 n) :
    Traced cs n (x.add item) ∧ ∀ y, x.add item = .ok y → ∀ e ∈ y.body, e.range.Between 0 n := by
  have more : ∀ e : Element, e.range.Between 0 n → ∀ e' ∈ x.body ++ [e], e'.range.Between 0 n :=
    fun e he => List.forall_mem_append.2 ⟨body, List.forall_mem_singleton.2 he⟩
  unfold Assembled.add
  split
  · split
    · exact ⟨traced_violate inside (by simp), nofun⟩
    · split
      · exact ⟨traced_violate inside (by simp), nofun⟩
      · exact ⟨traced_ok _, by rintro _ ⟨⟩; exact body⟩
  · split
    · exact ⟨traced_violate inside (by simp), nofun⟩
    · exact ⟨traced_ok _, by rintro _ ⟨⟩; exact more _ inside⟩
  · exact ⟨traced_ok _, by rintro _ ⟨⟩; exact more _ inside⟩

theorem traced_assembleDocument (source : SourceText) {items : List TopLevel}
    (each : ∀ i ∈ items, (topRange i).Between 0 n) :
    Traced cs n (assembleDocument source items) := by
  have added : ∀ x : Assembled, (∀ e ∈ x.body, e.range.Between 0 n) →
      Traced cs n (items.foldlM Assembled.add x) ∧
        ∀ y, items.foldlM Assembled.add x = .ok y → ∀ e ∈ y.body, e.range.Between 0 n := by
    induction items with
    | nil => exact fun x body => ⟨traced_ok x, by rintro _ ⟨⟩; exact body⟩
    | cons item items ih =>
      intro x body
      rw [List.forall_mem_cons] at each
      rw [List.foldlM_cons]
      obtain ⟨traced, kept⟩ := traced_add cs each.1 body
      refine ⟨traced_bind traced fun y hy => (ih each.2 y (kept y hy)).1, fun z hz => ?_⟩
      obtain ⟨y, hy, hz⟩ := bind_eq_ok.1 hz
      exact (ih each.2 y (kept y hy)).2 z hz
  -- what the elements are added to is the empty document
  obtain ⟨traced, kept⟩ := added ⟨none, false, []⟩ (by simp)
  refine traced_bind traced fun x hx => traced_bind ?_ fun _ _ => traced_ok _
  unfold Assembled.requireVersion
  split
  · exact traced_ok _
  · -- the place is where the first element starts
    refine traced_violate ⟨Nat.zero_le _, Nat.le_refl _, ?_⟩ (by simp)
    cases first : x.body.head? with
    | none => exact Nat.zero_le n
    | some e =>
      have inside := kept x hx e (List.mem_of_head? first)
      exact Nat.le_trans inside.ordered inside.stop

end Build

namespace Parser

open Build

theorem advances_version (rules : Rules) :
    Advances fe cs b (version fe.next) fun c x => TracedElement cs rules c x := by
  refine advances_bind advances_take fun start c bc hstart => advances_bind advances_take
    fun word d cd hword => advances_pure ?_
  have range := (hstart.join hword (Nat.le_refl c)).upto (Nat.le_refl d)
  refine tracedElement_of rfl range (Builder.traced_check (traced_version range _)) fun v hv => ?_
  have built := Builder.gives_check hv
  unfold Build.version at built
  split at built
  · cases built
    rfl
  · cases built

theorem advances_importAlias (rules : Rules) :
    Advances fe cs b (importAlias fe.next)
      (Contained cs Surface.Alias.range (Build.importAlias rules) b) := by
  refine advances_bind advances_take fun start c bc hstart => advances_bind advances_takeName
    fun _ d cd _ => advances_bind advances_take fun _ e de _ => advances_bind advances_takeName
      fun target f ef htarget => advances_pure ⟨hstart.join htarget (by omega), ?_⟩
  exact traced_importAlias (htarget.upto (Nat.le_refl f))

theorem advances_importDoc (rules : Rules) :
    Advances fe cs b (importDoc fe.next)
      (Contained cs Surface.Import.range (Build.importDoc rules) b) := by
  have wide : Wide (Contained cs Surface.Alias.range (Build.importAlias rules)) :=
    wide_contained _ _
  refine advances_bind advances_take fun start c bc hstart => advances_bind advances_takeQuoted
    fun uri d cd huri => advances_bind advances_givenName fun name e de hname =>
      advances_bind (advances_many wide fun _ => advances_importAlias rules)
        fun aliases f ef haliases => advances_pure ?_
  -- the last of the aliases, the name or the URI: it lies behind the keyword
  have named : ((name.map Surface.Word.range).getD uri.range).Between c f := by
    cases given : name with
    | none => exact huri.widen (Nat.le_refl c) (Nat.le_trans de ef)
    | some w => exact (hname w given).widen cd ef
  have last : ((aliases.getLast?.map Surface.Alias.range).getD
      ((name.map Surface.Word.range).getD uri.range)).Between c f := by
    cases final : aliases.getLast? with
    | none => exact named
    | some x =>
      exact (haliases x (List.mem_of_getLast? final)).1.widen (Nat.le_trans cd de) (Nat.le_refl f)
  have range := hstart.join last (Nat.le_refl c)
  exact ⟨range, traced_importDoc (range.upto (Nat.le_refl f)) (huri.upto (by omega)) haliases⟩

theorem advances_structDef (rules : Rules) :
    Advances fe cs b (structDef fe.next)
      (Contained cs Surface.StructDef.range (Build.structDef rules) b) := by
  have wide : Wide (DeclUpto cs rules) := wide_contained _ _
  refine advances_bind advances_take fun start c bc hstart => advances_bind advances_takeName
    fun name d cd hname => advances_bind advances_take fun _ e de _ =>
      advances_bind (advances_many wide fun _ => advances_unboundDecl rules) fun ds f ef hds =>
        advances_bind advances_take fun close g fg hclose =>
          advances_pure ⟨hstart.join hclose (by omega), ?_⟩
  exact traced_structDef (hname.upto (by omega)) fun x hx => wide (hds x hx) (Nat.le_refl e) fg

theorem advances_element (rules : Rules) :
    Advances fe cs b (element fe.next) fun c x => TracedElement cs rules c x := by
  refine advances_look looks_peek fun _ => ?_
  split
  · exact advances_version rules
  · exact advances_bind (advances_importDoc rules) fun _ c _ hx => advances_pure
      (tracedElement_of rfl (hx.1.upto (Nat.le_refl c)) (Builder.traced_check hx.2)
        fun _ hy => importDoc_range (Builder.gives_check hy))
  · exact advances_bind (advances_structDef rules) fun _ c _ hx => advances_pure
      (tracedElement_of rfl (hx.1.upto (Nat.le_refl c)) (Builder.traced_check hx.2)
        fun _ hy => structDef_range (Builder.gives_check hy))
  · exact advances_bind (advances_task rules) fun _ c _ hx => advances_pure
      (tracedElement_of rfl (hx.1.upto (Nat.le_refl c)) hx.2 fun _ hy => task_range hy)
  · exact advances_bind (advances_workflow rules) fun _ c _ hx => advances_pure
      (tracedElement_of rfl (hx.1.upto (Nat.le_refl c)) (Builder.traced_check hx.2)
        fun _ hy => workflow_range (Builder.gives_check hy))

/-- A document goes forwards, and whatever is wrong with it is in what was read. -/
theorem advances_document (rules : Rules) (source : SourceText) :
    Advances fe cs b (document fe.next) fun c d => (Build.document rules source d).Traced cs c := by
  have wide : Wide fun _ c x => TracedElement cs rules c x := fun _ _ _ _ _ h _ cd => h.widen cd
  refine advances_bind (advances_many wide fun _ => advances_element rules) fun xs c _ hxs =>
    advances_pure (Builder.traced_bind (Builder.traced_each fun x hx => (hxs x hx).1)
      fun items h => Builder.traced_check (traced_assembleDocument source ?_))
  exact forall_of_forall₂ (Builder.gives_each h) fun x hx => (hxs x hx).2

/-! ## Whole texts

A text is read up to its end, with a line break added where it has none. So positions are found in
`terminated cs` first. That none is behind the added line break follows because no surface form ends
there (`Closed`). -/

/-- A text that is rejected by its grammar is rejected at a place of it. -/
theorem whole_on {p : Parser α} {Q : Nat → α → Prop} {start : Expect} {r : Rejection}
    (h : Advances fe (terminated cs) 0 p Q) (rejected : whole fe.next start p cs = .error r) :
    r.On (terminated cs) := by
  have on : (⟨0, terminated cs⟩ : Cursor).On (terminated cs) := ⟨Nat.zero_le _, rfl⟩
  unfold whole at rejected
  split at rejected
  · rename_i place found
    cases rejected
    exact next_error_on found on
  · rename_i ahead cursor found
    have here := h ⟨ahead, cursor, none⟩ ⟨sound_start found, nofun, rfl⟩
    split at rejected
    · rename_i gaveUp
      cases rejected
      rw [show p ⟨ahead, cursor, none⟩ = .error _ from gaveUp] at here
      exact here
    · rename_i x s read
      rw [show p ⟨ahead, cursor, none⟩ = .ok (x, s) from read] at here
      obtain ⟨c, -, standing, -⟩ := here
      -- the parser is done, but a token is left
      split at rejected
      · cases rejected
      · rename_i token ahead
        cases rejected
        exact (standing.sound.ahead ahead).1

/-- What a whole text is parsed as is related to the position where its parser ends. Where no line
break ends there, that position is in the text. -/
theorem whole_contained {p : Parser α} {Q : Nat → α → Prop} {start : Expect} {x : α}
    (h : Advances fe (terminated cs) 0 p Q) (parsed : whole fe.next start p cs = .ok x)
    (closed : ∀ s s', s.Sound fe (terminated cs) → s.back = 0 → p s = .ok (x, s') →
      Closed (terminated cs) s'.back) : ∃ c ≤ cs.length, Q c x := by
  obtain ⟨ahead, cursor, s, found, read, -⟩ := whole_eq_ok.1 parsed
  have sound := sound_start found
  have here := h ⟨ahead, cursor, none⟩ ⟨sound, nofun, rfl⟩
  rw [read] at here
  obtain ⟨c, -, standing, hx⟩ := here
  -- only behind the line feed that was added could it stand outside of the text
  have inside := Nat.le_trans standing.sound.ordered (State.front_le standing.sound)
  exact ⟨c, standing.back ▸ (closed _ s sound rfl read).le inside, hx⟩

/-- Whatever is wrong with a document that parses is in its text. -/
theorem document_traced (rules : Rules) (source : SourceText) {d : Surface.Document}
    (parsed : Surface.Document.parse fe.next source.chars = .ok d) :
    (Build.document rules source d).Traced (terminated source.chars) source.chars.length := by
  obtain ⟨c, le, traced⟩ := whole_contained (advances_document rules source) parsed
    fun s s' sound back read => by
      have none : Closed (terminated source.chars) s.back := by
        rw [back]
        exact nofun
      exact (document_reaches rules sound none read).2.2.1
  exact traced.widen le

/-- Whatever is wrong with an expression that parses is in its text. -/
theorem expr_traced (rules : Rules) {σ : Surface.Expr}
    (parsed : Surface.Expr.parse fe.next cs = .ok σ) :
    Build.Traced (terminated cs) cs.length (Build.expr rules σ) := by
  obtain ⟨c, le, traced⟩ := whole_contained (advances_expr rules) parsed
    fun _ _ sound _ read => expr_closed sound read
  exact traced.2.widen le

end Parser

open Wdl.Parser

/-- What parsing reports is why the grammar rejects the text, or what building stops at. -/
theorem Parsed.ofSurface_eq_error {surface : Except Rejection α} {build : α → Builder β}
    {e : ParseError} (h : (ofSurface fe surface build).result = .error e) :
    (∃ r, surface = .error r ∧ e = .syntaxError fe (r.range fe)) ∨
      ∃ x v, surface = .ok x ∧ (build x).Blames v ∧ e = .violated fe v := by
  unfold ofSurface at h
  split at h
  · rename_i r
    cases h
    exact .inl ⟨r, rfl, rfl⟩
  · rename_i x
    unfold ofBuilder at h
    cases run : StateT.run (ExceptT.run (build x)) [] with
    | mk result warnings =>
      rw [run] at h
      cases result with
      | ok y => cases h
      | error v =>
        cases h
        exact .inr ⟨x, v, rfl, ⟨[], warnings, run⟩, rfl⟩

variable {source : SourceText}

/-- A document is rejected by its grammar at a place of its text, or for a violation in it. -/
theorem parseDocument_traced {e : ParseError}
    (failed : (parseDocument rules source).result = .error e) :
    (∃ r, Surface.Document.parse rules.frontEnd.next source.chars = .error r ∧
      r.On (terminated source.chars) ∧
        e = .syntaxError rules.frontEnd (r.range rules.frontEnd)) ∨
      ∃ d v, Surface.Document.parse rules.frontEnd.next source.chars = .ok d ∧
        v.Traced (terminated source.chars) source.chars.length ∧
          e = .violated rules.frontEnd v := by
  rcases Parsed.ofSurface_eq_error failed with ⟨r, rejected, rfl⟩ | ⟨d, v, parsed, blames, rfl⟩
  · exact .inl ⟨r, rejected, whole_on (advances_document rules source) rejected, rfl⟩
  · exact .inr ⟨d, v, parsed, document_traced rules source parsed v blames, rfl⟩

/-- An expression is rejected by its grammar at a place of its text, or for a violation in it. -/
theorem parseExpr_traced {e : ParseError} (failed : (parseExpr rules source).result = .error e) :
    (∃ r, Surface.Expr.parse rules.frontEnd.next source.chars = .error r ∧
      r.On (terminated source.chars) ∧
        e = .syntaxError rules.frontEnd (r.range rules.frontEnd)) ∨
      ∃ σ v, Surface.Expr.parse rules.frontEnd.next source.chars = .ok σ ∧
        v.Traced (terminated source.chars) source.chars.length ∧
          e = .violated rules.frontEnd v := by
  rcases Parsed.ofSurface_eq_error failed with ⟨r, rejected, rfl⟩ | ⟨σ, v, parsed, blames, rfl⟩
  · exact .inl ⟨r, rejected, whole_on (advances_expr rules) rejected, rfl⟩
  · exact .inr ⟨σ, v, parsed, Builder.traced_check (expr_traced rules parsed) v blames, rfl⟩

end Wdl
