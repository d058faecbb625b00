import Wdl.Proofs.LiteralFiles
import Wdl.Proofs.Overriding

/-!
# Wdl.Proofs.Overlaying -- what a layer says when options are put into it

A layer says something of an option if the section of the option is there and has it, or shares it;
`Layer.said?` is what it says. Where no options are shared (`Layer.Own`), putting an entry into a
layer changes what is said of the options of the entry and of no others, and the last entry for an
option counts.

* `said?_setKey` and `said?_addSection` are the single changes, and `said?_put` and `said?_putAll`
  what becomes of entries. They compare with `mentions`, the list of all options that some entries
  mention.
* `Plain.putAll_told` says that such a layer can be taken apart and filled in again without a
  change.
* `overlaid_eq` is what follows for overrides over those of before: they say what they say
  themselves, and else what was said before.
-/

namespace Wdl.Config

namespace Layer

/-! ## What a layer says -/

/-- What a layer says of an option of a section: the section's own options go before the shared
ones. -/
def said? (l : Layer) (sec key : String) : Option String :=
  (l.sections.lookup sec).bind fun options => (options.lookup key).or (l.shared.lookup key)

/-- All options of the layer stand in sections of their own. -/
structure Own (l : Layer) : Prop where
  shared : l.shared = []
  named : ∀ s ∈ l.sections, isShared s.1 = false

/-- The empty layer shares nothing. -/
theorem Own.empty : empty.Own := ⟨rfl, by simp [Layer.empty]⟩

/-- Looking up under a key finds the first entry that has it. -/
theorem lookup_cons_eq {α β : Type} [BEq α] [LawfulBEq α] [DecidableEq α] (k a : α) (x : β)
    (rest : List (α × β)) :
    ((k, x) :: rest).lookup a = if a = k then some x else rest.lookup a := by
  rw [List.lookup_cons]
  by_cases same : a = k
  · simp [same]
  · simp [same, beq_false_of_ne same]

/-- Options have a name if something is found under it. -/
theorem hasKey_eq (options : Options) (key : String) :
    hasKey options key = (options.lookup key).isSome := by
  cases has : hasKey options key with
  | true =>
    obtain ⟨value, found⟩ := isSome_lookup has
    rw [found]
    rfl
  | false =>
    rw [lookup_of_not_hasKey has]
    rfl

/-- A layer has the options of which it says something. -/
theorem hasOption_eq {l : Layer} {sec : String} (named : isShared sec = false) (key : String) :
    l.hasOption sec key = (l.said? sec key).isSome := by
  unfold hasOption said?
  rw [named]
  cases l.sections.lookup sec with
  | none => rfl
  | some options =>
    show (hasKey options key || hasKey l.shared key) = ((options.lookup key).or _).isSome
    rw [hasKey_eq, hasKey_eq]
    cases options.lookup key <;> rfl

/-- What a literal layer says of an option is read as it is written. -/
theorem Literal.get_eq {l : Layer} (literal : l.Literal) {sec key value : String}
    (said : l.said? sec key = some value) : l.get sec key = .ok value := by
  obtain ⟨options, found, here⟩ := Option.bind_eq_some_iff.1 said
  have visible : l.visible? sec = some (options ++ l.shared) := by
    unfold visible?
    rw [found]
  have lookedUp : (options ++ l.shared).lookup key = some value := by
    rw [List.lookup_append]
    exact here
  apply get_literal visible lookedUp
  have all : ∀ o ∈ options ++ l.shared, IsLiteral o.2 := by
    rw [List.forall_mem_append]
    exact ⟨literal.sections (sec, options) (mem_of_lookup found), literal.shared⟩
  exact all _ (mem_of_lookup lookedUp)

/-! ## Setting options -/

/-- Setting an option changes what is found under its name, and nothing else. -/
theorem lookup_setKey (key value k : String) (options : Options) :
    (setKey key value options).lookup k = if k = key then some value else options.lookup k := by
  induction options with
  | nil => rw [setKey, lookup_cons_eq]
  | cons o options ih =>
    obtain ⟨name, old⟩ := o
    rw [setKey]
    by_cases here : name = key
    · subst here
      rw [if_pos rfl, lookup_cons_eq, lookup_cons_eq]
      by_cases same : k = name
      · simp [same]
      · simp [same]
    · rw [if_neg here, lookup_cons_eq, lookup_cons_eq, ih]
      by_cases same : k = name
      · -- The option at the front is asked for, and it is not the one that is set.
        simp [same, here]
      · simp [same]

/-- Changing the options of a section changes what is found under its name, and nothing else. -/
theorem lookup_mapSections (f : Options → Options) (e sec : String)
    (sections : List (String × Options)) :
    (sections.map fun s => if s.1 = e then (s.1, f s.2) else s).lookup sec =
      if sec = e then (sections.lookup e).map f else sections.lookup sec := by
  induction sections with
  | nil => simp
  | cons s sections ih =>
    obtain ⟨name, options⟩ := s
    rw [List.map_cons, lookup_cons_eq name e]
    by_cases here : name = e
    · subst here
      rw [if_pos rfl, lookup_cons_eq, lookup_cons_eq, ih]
      by_cases same : sec = name
      · simp [same]
      · simp [same]
    · rw [if_neg here, lookup_cons_eq, lookup_cons_eq, ih, if_neg (Ne.symm here)]
      by_cases same : sec = e
      · simp [same, Ne.symm here]
      · simp [same]

/-- Setting an option of a section that is there changes what is said of that option only. -/
theorem said?_setKey {l : Layer} {e : String} (named : isShared e = false)
    (there : l.hasSection e = true) (k value sec key : String) :
    (mapSection e (setKey k value) l).said? sec key =
      if (sec, key) = (e, k) then some value else l.said? sec key := by
  unfold mapSection
  rw [named, if_neg (by decide)]
  unfold said?
  dsimp only
  rw [lookup_mapSections]
  by_cases same : sec = e
  · subst same
    rw [hasSection_iff, List.mem_map] at there
    obtain ⟨s, hs, rfl⟩ := there
    obtain ⟨options, found⟩ : ∃ options, l.sections.lookup s.1 = some options := by
      rw [← Option.isSome_iff_exists, List.lookup_isSome_iff]
      exact ⟨s, hs, by simp⟩
    rw [if_pos rfl, found]
    show ((setKey k value options).lookup key).or _ = _
    rw [lookup_setKey]
    by_cases this : key = k
    · simp [this]
    · simp [this]
  · simp [same]

/-- Changing the options of a section leaves the sections as they are. -/
theorem hasSection_mapSection (e : String) (f : Options → Options) (l : Layer) (sec : String) :
    (mapSection e f l).hasSection sec = l.hasSection sec := by
  rw [Bool.eq_iff_iff, hasSection_iff, hasSection_iff, keys_mapSection]

/-- A section that is added is there. -/
theorem hasSection_addSection {e : String} (named : isShared e = false) (l : Layer) :
    (addSection e l).hasSection e = true := by
  unfold addSection
  split
  · rename_i there
    rcases there with rfl | there
    · cases named
    · exact there
  · rw [hasSection_iff]
    simp

/-- A section without options changes nothing of what is said. -/
theorem said?_addSection {l : Layer} (own : l.shared = []) (e sec key : String) :
    (addSection e l).said? sec key = l.said? sec key := by
  unfold addSection
  split
  · rfl
  · unfold said?
    rw [List.lookup_append, own]
    cases found : l.sections.lookup sec with
    | some options => rfl
    | none =>
      rw [Option.none_or, List.lookup_cons]
      split <;> rfl

/-! ## Putting entries in

The last mention counts, so the list of mentions is looked through from its end. -/

/-- What entries mention: options, by section and by name in small letters, with their values. -/
def mentions (entries : List (String × Options)) : List ((String × String) × String) :=
  entries.flatMap fun e => e.2.map fun o => ((e.1, LetterCase.small o.1), o.2)

/-- What is said after options are set one after the other: the last mention counts. -/
theorem said?_setAll {e : String} (named : isShared e = false) (options : Options) {l : Layer}
    (there : l.hasSection e = true) (sec key : String) :
    (setAll e (smallKeys options) l).said? sec key =
      ((mentions [(e, options)]).reverse.lookup (sec, key)).or (l.said? sec key) := by
  induction options generalizing l with
  | nil => rfl
  | cons o options ih =>
    have after : (mapSection e (setKey (LetterCase.small o.1) o.2) l).hasSection e = true := by
      rw [hasSection_mapSection]
      exact there
    have later : (mentions [(e, o :: options)]).reverse =
        (mentions [(e, options)]).reverse ++ [((e, LetterCase.small o.1), o.2)] := by
      simp [mentions]
    show (setAll e (smallKeys options) (mapSection e (setKey _ o.2) l)).said? sec key = _
    rw [ih after, said?_setKey named there, later, List.lookup_append]
    -- A later mention counts before this one, and this one before what was said.
    cases (mentions [(e, options)]).reverse.lookup (sec, key) with
    | some value => rfl
    | none =>
      rw [Option.none_or, lookup_cons_eq]
      by_cases this : (sec, key) = (e, LetterCase.small o.1)
      · simp only [if_pos this]
        rfl
      · simp only [if_neg this]
        rfl

/-- Setting options of a section leaves the shared ones as they are. -/
theorem shared_setAll {e : String} (named : isShared e = false) (options : Options) (l : Layer) :
    (setAll e options l).shared = l.shared := by
  unfold setAll
  induction options generalizing l with
  | nil => rfl
  | cons o options ih =>
    rw [List.foldl_cons, ih, mapSection, named, if_neg (by decide)]

/-- Setting options of a section leaves the sections as they are. -/
theorem keys_setAll (e : String) (options : Options) (l : Layer) :
    (setAll e options l).sections.map (·.1) = l.sections.map (·.1) := by
  unfold setAll
  induction options generalizing l with
  | nil => rfl
  | cons o options ih => rw [List.foldl_cons, ih, keys_mapSection]

/-- Putting in an entry shares nothing. -/
theorem Own.put {l : Layer} (own : l.Own) {entry : String × Options}
    (named : isShared entry.1 = false) : (put l entry).Own where
  shared := by
    rw [Layer.put, shared_setAll named, addSection]
    split
    · exact own.shared
    · exact own.shared
  named := by
    have keys : ∀ name ∈ (Layer.put l entry).sections.map (·.1), isShared name = false := by
      rw [Layer.put, keys_setAll, addSection]
      split
      · exact List.forall_mem_map.2 own.named
      · rw [List.map_append, List.forall_mem_append]
        exact ⟨List.forall_mem_map.2 own.named, by simpa using named⟩
    exact List.forall_mem_map.1 keys

/-- What is said after an entry is put in. -/
theorem said?_put {l : Layer} (own : l.Own) {entry : String × Options}
    (named : isShared entry.1 = false) (sec key : String) :
    (put l entry).said? sec key =
      ((mentions [entry]).reverse.lookup (sec, key)).or (l.said? sec key) := by
  rw [put, said?_setAll named _ (hasSection_addSection named l), said?_addSection own.shared]

/-- Putting in entries shares nothing. -/
theorem Own.putAll {l : Layer} (own : l.Own) {entries : List (String × Options)}
    (named : ∀ entry ∈ entries, isShared entry.1 = false) : (entries.foldl Layer.put l).Own := by
  induction entries generalizing l with
  | nil => exact own
  | cons entry entries ih =>
    rw [List.forall_mem_cons] at named
    exact ih (own.put named.1) named.2

/-- What is said after entries are put in one after the other: the last mention counts. -/
theorem said?_putAll {l : Layer} (own : l.Own) {entries : List (String × Options)}
    (named : ∀ entry ∈ entries, isShared entry.1 = false) (sec key : String) :
    (entries.foldl put l).said? sec key =
      ((mentions entries).reverse.lookup (sec, key)).or (l.said? sec key) := by
  induction entries generalizing l with
  | nil => rfl
  | cons entry entries ih =>
    rw [List.forall_mem_cons] at named
    have later : (mentions (entry :: entries)).reverse =
        (mentions entries).reverse ++ (mentions [entry]).reverse := by
      simp [mentions]
    rw [List.foldl_cons, ih (own.put named.1) named.2, said?_put own named.1, later,
      List.lookup_append]
    cases (mentions entries).reverse.lookup (sec, key) <;> rfl

/-! ## Filling in again -/

/-- An option of a new name goes behind the others. -/
theorem setKey_new {key value : String} {options : Options} (new : key ∉ options.map (·.1)) :
    setKey key value options = options ++ [(key, value)] := by
  induction options with
  | nil => rfl
  | cons o options ih =>
    rw [List.map_cons, List.mem_cons, not_or] at new
    rw [setKey, if_neg (Ne.symm new.1), ih new.2]
    rfl

/-- Setting the options of a new section one after the other adds that section with them. -/
theorem setAll_new {name : String} (named : isShared name = false)
    {sections : List (String × Options)} (new : name ∉ sections.map (·.1)) {done options : Options}
    (distinct : ((done ++ options).map (·.1)).Nodup) :
    setAll name options ⟨[], sections ++ [(name, done)]⟩ =
      ⟨[], sections ++ [(name, done ++ options)]⟩ := by
  induction options generalizing done with
  | nil => simp [setAll]
  | cons o options ih =>
    have fresh : o.1 ∉ done.map (·.1) := by
      rw [List.map_append, List.map_cons, List.nodup_append] at distinct
      intro there
      exact distinct.2.2 _ there _ List.mem_cons_self rfl
    have set : mapSection name (setKey o.1 o.2) ⟨[], sections ++ [(name, done)]⟩ =
        ⟨[], sections ++ [(name, done ++ [o])]⟩ := by
      have others : sections.map (fun s => if s.1 = name then (s.1, setKey o.1 o.2 s.2) else s) =
          sections := by
        apply (List.map_congr_left fun s hs => ?_).trans (List.map_id _)
        exact if_neg (ne_of_mem_of_not_mem (List.mem_map_of_mem hs) new)
      rw [mapSection, named, if_neg (by decide)]
      simp only [List.map_append, List.map_cons, List.map_nil, others, if_true, setKey_new fresh]
    show setAll name options (mapSection name (setKey o.1 o.2) _) = _
    rw [set, ih (by simpa using distinct)]
    simp

/-- The names of plain options are in small letters already. -/
theorem smallKeys_eq {options : Options} (plain : PlainOptions options) :
    smallKeys options = options := by
  apply (List.map_congr_left fun o ho => ?_).trans (List.map_id _)
  rw [plain.small o ho]
  rfl

/-- A layer that shares nothing is filled in again as it was. -/
theorem Plain.putAll_told {l : Layer} (plain : l.Plain) (own : l.Own) :
    l.told.foldl Layer.put .empty = l := by
  obtain ⟨shared, sections⟩ := l
  obtain rfl : shared = [] := own.shared
  -- the sections that are filled in come one by one behind those that are, as they stood
  have each : ∀ done rest, sections = done ++ rest →
      rest.foldl Layer.put ⟨[], done⟩ = (⟨[], sections⟩ : Layer) := by
    intro done rest
    induction rest generalizing done with
    | nil =>
      rintro rfl
      simp
    | cons s rest ih =>
      intro eq
      have here : s ∈ sections := by simp [eq]
      have options := plain.sections s here
      have named := own.named s here
      have new : s.1 ∉ done.map (·.1) := by
        have distinct := plain.distinct
        rw [eq, List.map_append, List.map_cons, List.nodup_append] at distinct
        intro there
        exact distinct.2.2 _ there _ List.mem_cons_self rfl
      have added : Layer.put ⟨[], done⟩ s = ⟨[], done ++ [s]⟩ := by
        have absent : ¬(s.1 = sharedName ∨ (⟨[], done⟩ : Layer).hasSection s.1 = true) := by
          rw [not_or, hasSection_iff]
          refine ⟨fun shared => ?_, new⟩
          rw [shared] at named
          cases named
        rw [Layer.put, Layer.addSection, if_neg absent, smallKeys_eq options]
        exact setAll_new named new (by simpa using options.distinct)
      rw [List.foldl_cons, added]
      apply ih
      simp [eq]
  have nothing : Layer.put .empty (sharedName, []) = .empty := rfl
  have same : (sections.map fun s => (s.1, Layer.allOf (⟨[], sections⟩ : Layer) s.2)) =
      sections := by
    apply (List.map_congr_left fun s _ => ?_).trans (List.map_id _)
    simp [Layer.allOf]
  rw [Layer.told, List.foldl_cons, nothing, same]
  exact each [] sections rfl

end Layer

open Layer

/-- Overrides over those of before that share nothing are those of before with entries put in. -/
theorem overlaid_eq {before : Layer} (plain : before.Plain) (own : before.Own)
    (overrides : Overrides) :
    overlaid before overrides = (overrideEntries overrides).foldl put before := by
  rw [overlaid, plain.putAll_told own]

end Wdl.Config
