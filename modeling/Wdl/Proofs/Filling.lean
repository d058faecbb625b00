import Mathlib.Data.List.Nodup
import Wdl.Config
import Wdl.Proofs.LetterCases

/-!
# Wdl.Proofs.Filling -- layers without references

A value without a percent sign is literal: it refers to no other option and reads as it is written.
A layer is plain if its values are literal and its names are told apart. A plain layer can be
spelled out and filled in again, together with options whose names differ even in small letters:
nothing is at fault then, and what results is a plain layer again.

* `IsLiteral` is the condition on values, `PlainOptions` and `Layer.Plain` those on options and
  layers. What is filled in need only be `Fillable`: its names are put in small letters on the way.
* `Fills m l x l'` says of a computation on layers that it runs without a fault; `fill_fills` is the
  run of `fill`, and `Layer.put` what it does for each section.
* `Layer.told` is what a plain layer says, section by section, each with the shared options that it
  does not have itself. `Plain.spelledOut` says that spelling out gives just that, and
  `Plain.get_ok` that every option can be read.
-/

namespace Wdl.Config

namespace Layer

/-! ## Literal values

References are marked by percent signs, in every one of the passes that a value goes through. -/

/-- A text in which nothing stands for something else. -/
def IsLiteral (s : String) : Prop := '%' ∉ s.toList

instance : DecidablePred IsLiteral := fun s => inferInstanceAs (Decidable ('%' ∉ s.toList))

/-- A literal value stands for itself. -/
theorem expand_literal {options : Options} {target : Target} {depth : Nat} {cs : List Char}
    (literal : '%' ∉ cs) : expand options target (depth + 1) cs = .ok cs := by
  induction cs with
  | nil => rw [expand]
  | cons c cs ih =>
    rw [List.mem_cons, not_or] at literal
    unfold expand
    simp only [ne_eq, Ne.symm literal.1, not_false_eq_true, if_true, ih literal.2]
    rfl

/-- There is no doubled sign in a literal value. -/
theorem dropDoubled_literal {cs : List Char} (literal : '%' ∉ cs) : dropDoubled cs = cs := by
  induction cs with
  | nil => rfl
  | cons c cs ih =>
    rw [List.mem_cons, not_or] at literal
    rw [dropDoubled, ih literal.2]
    rintro rest rfl -
    exact literal.1 rfl

/-- There is no reference in a literal value. -/
theorem dropReferences_literal {cs : List Char} (literal : '%' ∉ cs) : dropReferences cs = cs := by
  induction cs with
  | nil => rw [dropReferences]
  | cons c cs ih =>
    rw [List.mem_cons, not_or] at literal
    rw [dropReferences, if_neg (Ne.symm literal.1), ih literal.2]

/-- Nothing is wrong with the signs of a literal value. -/
theorem checkPercents_literal {value : String} (literal : IsLiteral value) :
    checkPercents value = .ok () := by
  unfold checkPercents
  rw [dropDoubled_literal literal, dropReferences_literal literal,
    List.findIdx?_eq_none_iff.2]
  rintro c hc
  exact beq_false_of_ne (ne_of_mem_of_not_mem hc literal)

/-! ## Plain layers -/

/-- Options that can be filled in: literal ones whose names differ even in small letters. -/
structure Fillable (options : Options) : Prop where
  distinct : (options.map fun o => LetterCase.small o.1).Nodup
  literal : ∀ o ∈ options, IsLiteral o.2

/-- Literal options whose names are in small letters and differ. -/
structure PlainOptions (options : Options) : Prop where
  small : ∀ o ∈ options, LetterCase.small o.1 = o.1
  distinct : (options.map (·.1)).Nodup
  literal : ∀ o ∈ options, IsLiteral o.2

/-- A layer of plain options, of which no section is a second time there or named as the shared
options are. -/
structure Plain (l : Layer) : Prop where
  shared : PlainOptions l.shared
  sections : ∀ s ∈ l.sections, PlainOptions s.2
  distinct : (l.sections.map (·.1)).Nodup
  unshared : sharedName ∉ l.sections.map (·.1)

/-- No options are plain. -/
theorem PlainOptions.nil : PlainOptions [] := ⟨by simp, by simp, by simp⟩

/-- The empty layer is plain. -/
theorem Plain.empty : Plain empty := ⟨.nil, by simp [Layer.empty], by simp [Layer.empty],
  by simp [Layer.empty]⟩

/-- Plain options can be filled in, for their names are in small letters already. -/
theorem PlainOptions.fillable {options : Options} (plain : PlainOptions options) :
    Fillable options := by
  refine ⟨?_, plain.literal⟩
  rw [List.map_congr_left plain.small]
  exact plain.distinct

/-- Options in small letters. -/
def smallKeys (options : Options) : Options := options.map fun o => (LetterCase.small o.1, o.2)

/-- Setting an option adds its name at the end, unless it is there. -/
theorem keys_setKey (key value : String) (options : Options) :
    (setKey key value options).map (·.1) =
      if key ∈ options.map (·.1) then options.map (·.1) else options.map (·.1) ++ [key] := by
  induction options with
  | nil => simp [setKey]
  | cons o options ih =>
    by_cases same : o.1 = key
    · simp [setKey, same]
    · have other : key ≠ o.1 := Ne.symm same
      simp only [setKey, same, if_false, List.map_cons, ih, List.mem_cons, other, false_or]
      split <;> simp

/-- Setting an option adds nothing but it. -/
theorem mem_setKey {key value : String} {options : Options} {o : String × String}
    (h : o ∈ setKey key value options) : o = (key, value) ∨ o ∈ options := by
  induction options with
  | nil => exact .inl (List.mem_singleton.1 h)
  | cons p options ih =>
    unfold setKey at h
    split at h
    · rename_i same
      rw [List.mem_cons] at h
      rcases h with rfl | h
      · exact .inl (by rw [same])
      · exact .inr (List.mem_cons_of_mem _ h)
    · rw [List.mem_cons] at h
      rcases h with rfl | h
      · exact .inr List.mem_cons_self
      · exact (ih h).imp id (List.mem_cons_of_mem _)

/-- A new name keeps the names told apart. -/
theorem nodup_concat {keys : List String} (distinct : keys.Nodup) {key : String}
    (new : key ∉ keys) : (keys ++ [key]).Nodup := by
  rw [List.nodup_append]
  refine ⟨distinct, List.nodup_singleton _, fun k hk l hl => ?_⟩
  rw [List.mem_singleton.1 hl]
  exact ne_of_mem_of_not_mem hk new

/-- Setting a literal option keeps options plain. -/
theorem PlainOptions.setKey {options : Options} (plain : PlainOptions options) {key value : String}
    (small : LetterCase.small key = key) (literal : IsLiteral value) :
    PlainOptions (setKey key value options) where
  small o ho := by
    rcases mem_setKey ho with rfl | ho
    · exact small
    · exact plain.small o ho
  distinct := by
    rw [keys_setKey]
    split
    · exact plain.distinct
    · rename_i new
      exact nodup_concat plain.distinct new
  literal o ho := by
    rcases mem_setKey ho with rfl | ho
    · exact literal
    · exact plain.literal o ho

/-- Changing the options of a section changes no names of sections. -/
theorem keys_mapSection (sec : String) (f : Options → Options) (l : Layer) :
    (mapSection sec f l).sections.map (·.1) = l.sections.map (·.1) := by
  unfold mapSection
  split
  · rfl
  · rw [List.map_map]
    refine List.map_congr_left fun s _ => ?_
    simp only [Function.comp_apply]
    split <;> rfl

/-- Changing a section in a way that keeps options plain keeps a layer plain. -/
theorem Plain.mapSection {l : Layer} (plain : l.Plain) (sec : String) {f : Options → Options}
    (keeps : ∀ options, PlainOptions options → PlainOptions (f options)) :
    (mapSection sec f l).Plain where
  shared := by
    unfold Layer.mapSection
    split
    · exact keeps _ plain.shared
    · exact plain.shared
  sections := by
    unfold Layer.mapSection
    split
    · exact plain.sections
    · simp only [List.forall_mem_map]
      intro s hs
      split
      · exact keeps _ (plain.sections s hs)
      · exact plain.sections s hs
  distinct := by
    rw [keys_mapSection]
    exact plain.distinct
  unshared := by
    rw [keys_mapSection]
    exact plain.unshared

/-- A layer has the sections that it names. -/
theorem hasSection_iff {l : Layer} {sec : String} :
    l.hasSection sec = true ↔ sec ∈ l.sections.map (·.1) := by
  simp [hasSection]

/-- Adding a section keeps a layer plain. -/
theorem Plain.addSection {l : Layer} (plain : l.Plain) (sec : String) :
    (addSection sec l).Plain := by
  unfold Layer.addSection
  split
  · exact plain
  · rename_i new
    rw [not_or, hasSection_iff] at new
    refine ⟨plain.shared, ?_, ?_, ?_⟩
    · simp only [List.forall_mem_append, List.forall_mem_singleton]
      exact ⟨plain.sections, .nil⟩
    · rw [List.map_append]
      exact nodup_concat plain.distinct new.2
    · simp only [List.map_append, List.mem_append, not_or, List.map_cons, List.map_nil,
        List.mem_singleton]
      exact ⟨plain.unshared, Ne.symm new.1⟩

/-! ## Filling in -/

/-- The layer with options of a section set one after the other. -/
def setAll (sec : String) (options : Options) (l : Layer) : Layer :=
  options.foldl (fun l o => mapSection sec (setKey o.1 o.2) l) l

/-- The layer with a section that has further options. -/
def put (l : Layer) (entry : String × Options) : Layer :=
  setAll entry.1 (smallKeys entry.2) (addSection entry.1 l)

/-- Setting options one after the other keeps a layer plain. -/
theorem Plain.setAll {sec : String} {options : Options} (fillable : Fillable options) {l : Layer}
    (plain : l.Plain) : (setAll sec (smallKeys options) l).Plain := by
  obtain ⟨-, literal⟩ := fillable
  induction options generalizing l with
  | nil => exact plain
  | cons o options ih =>
    rw [List.forall_mem_cons] at literal
    refine ih (plain.mapSection sec fun options plain => ?_) literal.2
    exact plain.setKey (LetterCase.small_small _) literal.1

/-- Filling in a section keeps a layer plain. -/
theorem Plain.put {l : Layer} (plain : l.Plain) {entry : String × Options}
    (fillable : Fillable entry.2) : (put l entry).Plain :=
  .setAll fillable (plain.addSection entry.1)

/-- Filling in sections one after the other keeps a layer plain. -/
theorem Plain.putAll {l : Layer} (plain : l.Plain) {entries : List (String × Options)}
    (fillable : ∀ entry ∈ entries, Fillable entry.2) : (entries.foldl Layer.put l).Plain := by
  induction entries generalizing l with
  | nil => exact plain
  | cons entry entries ih =>
    rw [List.forall_mem_cons] at fillable
    exact ih (plain.put fillable.1) fillable.2

/-- Options whose values are there. -/
def present (options : Options) : List (String × Except Fault String) :=
  options.map fun o => (o.1, .ok o.2)

/-- Changes run from one layer to another without a fault and give a value. -/
def Fills {α : Type} (m : Filling α) (l : Layer) (x : α) (l' : Layer) : Prop :=
  StateT.run (ExceptT.run m) l = (.ok x, l')

/-- One computation behind the other runs from layer to layer. -/
theorem Fills.bind {α β : Type} {m : Filling α} {k : α → Filling β} {l l₁ l₂ : Layer} {x : α}
    {y : β} (first : Fills m l x l₁) (second : Fills (k x) l₁ y l₂) : Fills (m >>= k) l y l₂ := by
  unfold Fills at *
  simp only [ExceptT.run_bind, StateT.run_bind]
  rw [first]
  exact second

theorem Fills.modify (f : Layer → Layer) (l : Layer) : Fills (modify f) l () (f l) := rfl

theorem Fills.lift {α : Type} {x : Except Fault α} {y : α} (ok : x = .ok y) (l : Layer) :
    Fills (liftM x) l y l := by
  rw [ok]
  rfl

/-- Options whose names differ even in small letters are set one after the other. -/
theorem fillOptions_fills (sec : String) {options : Options} (fillable : Fillable options)
    {seen : List String} (new : ∀ o ∈ options, LetterCase.small o.1 ∉ seen) (l : Layer) :
    Fills (fillOptions sec seen (present options)) l () (setAll sec (smallKeys options) l) := by
  obtain ⟨distinct, literal⟩ := fillable
  induction options generalizing seen l with
  | nil => rfl
  | cons o options ih =>
    rw [List.map_cons, List.nodup_cons] at distinct
    rw [List.forall_mem_cons] at literal new
    have fresh : ¬seen.contains (LetterCase.small o.1) = true := by simpa using new.1
    show Fills (fillOptions sec seen ((o.1, .ok o.2) :: present options)) l () _
    rw [fillOptions]
    refine .bind (.lift rfl l) ?_
    simp only [if_neg fresh]
    refine .bind (.lift (checkPercents_literal literal.1) l) (.bind (.modify _ l) ?_)
    refine ih (fun p hp => ?_) _ distinct.2 literal.2
    rw [List.mem_cons, not_or]
    refine ⟨fun same => distinct.1 ?_, new.2 p hp⟩
    rw [← same, List.mem_map]
    exact ⟨p, hp, rfl⟩

/-- Sections with options whose values are there. -/
def presentAll (entries : List (String × Options)) :
    List (String × List (String × Except Fault String)) :=
  entries.map fun entry => (entry.1, present entry.2)

/-- Sections whose options can be filled in are put one after the other. -/
theorem fill_fills {entries : List (String × Options)}
    (fillable : ∀ entry ∈ entries, Fillable entry.2) (l : Layer) :
    Fills (fill (presentAll entries)) l () (entries.foldl put l) := by
  induction entries generalizing l with
  | nil => rfl
  | cons entry entries ih =>
    rw [List.forall_mem_cons] at fillable
    show Fills (fill ((entry.1, present entry.2) :: presentAll entries)) l () _
    rw [fill]
    refine .bind (.modify _ l) (.bind (fillOptions_fills entry.1 fillable.1 (by simp) _) ?_)
    exact ih fillable.2 _

/-! ## Spelling out -/

/-- An option with a literal value reads as it is written. -/
theorem get_literal {l : Layer} {sec key value : String} {options : Options}
    (visible : l.visible? sec = some options) (found : options.lookup key = some value)
    (literal : IsLiteral value) : l.get sec key = .ok value := by
  unfold get
  rw [visible]
  simp only [found]
  rw [maxDepth, expand_literal literal]
  simp [bind, Except.bind, pure, Except.pure]

/-- With distinct names, an entry is found under its own. -/
theorem lookup_of_mem {α : Type} {entries : List (String × α)}
    (distinct : (entries.map (·.1)).Nodup) {entry : String × α} (h : entry ∈ entries) :
    entries.lookup entry.1 = some entry.2 := by
  induction entries with
  | nil => cases h
  | cons e entries ih =>
    rw [List.map_cons, List.nodup_cons] at distinct
    rw [List.mem_cons] at h
    rcases h with rfl | h
    · rw [List.lookup_cons_self]
    · have other : entry.1 ≠ e.1 := ne_of_mem_of_not_mem (List.mem_map_of_mem h) distinct.1
      rw [List.lookup_cons, beq_false_of_ne other]
      exact ih distinct.2 h

/-- Options have the names that are among them. -/
theorem hasKey_iff {options : Options} {key : String} :
    hasKey options key = true ↔ key ∈ options.map (·.1) := by
  simp [hasKey]

/-- An option that is there is found. -/
theorem isSome_lookup {options : Options} {key : String} (h : hasKey options key = true) :
    ∃ value, options.lookup key = some value := by
  rw [hasKey_iff, List.mem_map] at h
  obtain ⟨o, ho, rfl⟩ := h
  induction options with
  | nil => cases ho
  | cons p options ih =>
    rw [List.lookup_cons]
    split
    · exact ⟨p.2, rfl⟩
    · rename_i other
      rw [List.mem_cons] at ho
      rcases ho with rfl | ho
      · simp at other
      · exact ih ho

/-- An option that is not there is not found. -/
theorem lookup_of_not_hasKey {options : Options} {key : String} (h : hasKey options key = false) :
    options.lookup key = none := by
  rw [List.lookup_eq_none_iff]
  intro o ho
  rw [bne_iff_ne]
  rintro rfl
  rw [hasKey_iff.2 (List.mem_map_of_mem ho)] at h
  cases h

/-- All options of a section: its own, and the shared ones it does not have itself. -/
def allOf (l : Layer) (options : Options) : Options :=
  options ++ l.shared.filter fun o => !hasKey options o.1

/-- The names of all options are those that a layer lists for the section. -/
theorem map_fst_allOf (l : Layer) (options : Options) :
    (l.allOf options).map (·.1) = l.keysOf options := by
  rw [allOf, keysOf, List.map_append, List.filter_map]
  rfl

/-- All options of a section of a plain layer are plain. -/
theorem Plain.allOf {l : Layer} (plain : l.Plain) {options : Options}
    (own : PlainOptions options) : PlainOptions (l.allOf options) where
  small := by
    rw [Layer.allOf, List.forall_mem_append]
    exact ⟨own.small, fun o ho => plain.shared.small o (List.mem_of_mem_filter ho)⟩
  distinct := by
    rw [map_fst_allOf, keysOf, List.nodup_append]
    refine ⟨own.distinct, plain.shared.distinct.filter _, ?_⟩
    rintro key hk _ hl rfl
    simp [hasKey_iff.2 hk] at hl
  literal := by
    rw [Layer.allOf, List.forall_mem_append]
    exact ⟨own.literal, fun o ho => plain.shared.literal o (List.mem_of_mem_filter ho)⟩

/-- What a plain layer says. -/
def told (l : Layer) : List (String × Options) :=
  (sharedName, l.shared) :: l.sections.map fun s => (s.1, l.allOf s.2)

/-- What a plain layer says can be filled in. -/
theorem Plain.told {l : Layer} (plain : l.Plain) : ∀ entry ∈ l.told, Fillable entry.2 := by
  rw [Layer.told, List.forall_mem_cons, List.forall_mem_map]
  exact ⟨plain.shared.fillable, fun s hs => (plain.allOf (plain.sections s hs)).fillable⟩

/-- The shared options are seen under their own name. -/
theorem Plain.visible_shared {l : Layer} (plain : l.Plain) :
    l.visible? sharedName = some l.shared := by
  have none : l.sections.lookup sharedName = none := by
    rw [List.lookup_eq_none_iff]
    intro s hs
    rw [bne_iff_ne]
    rintro same
    exact plain.unshared (same ▸ List.mem_map_of_mem hs)
  simp [visible?, none]

/-- In a section its own options are seen, and behind them the shared ones. -/
theorem Plain.visible_section {l : Layer} (plain : l.Plain) {s : String × Options}
    (hs : s ∈ l.sections) : l.visible? s.1 = some (s.2 ++ l.shared) := by
  rw [visible?, lookup_of_mem plain.distinct hs]

/-- Each of all options of a section is the one that is seen. -/
theorem Plain.lookup_allOf {l : Layer} (plain : l.Plain) {options : Options}
    (own : PlainOptions options) {o : String × String} (ho : o ∈ l.allOf options) :
    (options ++ l.shared).lookup o.1 = some o.2 := by
  rw [List.lookup_append]
  rw [Layer.allOf, List.mem_append, List.mem_filter, Bool.not_eq_true'] at ho
  rcases ho with ho | ⟨ho, new⟩
  · rw [lookup_of_mem own.distinct ho, Option.some_or]
  · rw [lookup_of_not_hasKey new, lookup_of_mem plain.shared.distinct ho, Option.none_or]

/-- A plain layer is spelled out as it is told. -/
theorem Plain.spelledOut {l : Layer} (plain : l.Plain) : l.spelledOut = presentAll l.told := by
  rw [Layer.spelledOut, presentAll, Layer.told, List.map_cons, List.map_map]
  congr 1
  · rw [present]
    congr 1
    refine List.map_congr_left fun o ho => ?_
    rw [get_literal plain.visible_shared (lookup_of_mem plain.shared.distinct ho)
      (plain.shared.literal o ho)]
  · refine List.map_congr_left fun s hs => ?_
    have own := plain.sections s hs
    rw [Function.comp_apply, present, ← map_fst_allOf, List.map_map]
    congr 1
    refine List.map_congr_left fun o ho => ?_
    rw [Function.comp_apply, get_literal (plain.visible_section hs) (plain.lookup_allOf own ho)
      ((plain.allOf own).literal o ho)]

/-- What is found is there. -/
theorem mem_of_lookup {α : Type} {entries : List (String × α)} {key : String} {x : α}
    (found : entries.lookup key = some x) : (key, x) ∈ entries := by
  obtain ⟨before, after, rfl, -⟩ := List.lookup_eq_some_iff.1 found
  simp

/-- Of a plain layer every option of a named section can be read. -/
theorem Plain.get_ok {l : Layer} (plain : l.Plain) {sec key : String}
    (named : isShared sec = false) (has : l.hasOption sec key = true) :
    ∃ value, l.get sec key = .ok value := by
  rw [hasOption, if_neg (by rw [named]; simp)] at has
  split at has
  · cases has
  · rename_i options found
    have hs : (sec, options) ∈ l.sections := mem_of_lookup found
    have has : hasKey (options ++ l.shared) key = true := by rwa [hasKey, List.any_append]
    obtain ⟨value, found⟩ := isSome_lookup has
    have literal : ∀ o ∈ options ++ l.shared, IsLiteral o.2 :=
      List.forall_mem_append.2 ⟨(plain.sections _ hs).literal, plain.shared.literal⟩
    exact ⟨value, get_literal (plain.visible_section hs) found (literal _ (mem_of_lookup found))⟩

end Layer

end Wdl.Config
