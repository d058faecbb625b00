import Wdl.Proofs.Layering

/-!
# Wdl.Proofs.Spellings -- names of sections in letters of any case

Whoever asks for an option may write its names in letters of any case: they are looked up in small
letters. Overrides keep the names of sections as they are written. So overrides under a name that is
not in small letters are put in and never found: they take effect without being checked, and every
option keeps its value. Nor is a section found under such a name.

* `Config.get_small`, `Config.hasOption_small` and `Config.getBool_small` are about asking.
* `Layer.hasSection_put` and `Layer.hasSection_putAll` say which sections a layer has, names taken
  as written.
* `Stands.override_unseen` is the result for overrides under names that are not in small letters,
  and `override_capital` one configuration where it matters.
-/

namespace Wdl.Config

open Layer

/-! ## Asking -/

section Asking

variable (vars : Variables) (c : Config) (sec key : String)

/-- An option has the value that it has under its names in small letters. -/
theorem get_small :
    c.get vars (LetterCase.small sec) (LetterCase.small key) = c.get vars sec key := by
  unfold get
  rw [LetterCase.small_small, LetterCase.small_small]

/-- Whether there is an option does not depend on how its names are written. -/
theorem hasOption_small :
    c.hasOption vars (LetterCase.small sec) (LetterCase.small key) = c.hasOption vars sec key := by
  unfold hasOption
  rw [get_small]

/-- The names are told as they are written only where the value is no truth value. -/
theorem getBool_small :
    (c.getBool vars (LetterCase.small sec) (LetterCase.small key)).toOption =
      (c.getBool vars sec key).toOption := by
  unfold getBool
  rw [get_small]
  cases c.get vars sec key with
  | error fault => rfl
  | ok value =>
    dsimp only [bind, Except.bind]
    cases truth? value with
    | none => rfl
    | some b => rfl

end Asking

/-! ## Overriding -/

/-- Putting a section in adds its name and no other. -/
theorem Layer.hasSection_put (sec : String) {entry : String × Options}
    (named : isShared entry.1 = false) (l : Layer) :
    (put l entry).hasSection sec = (l.hasSection sec || entry.1 == sec) := by
  rw [Bool.eq_iff_iff, hasSection_iff, put, keys_setAll, addSection]
  have unshared : entry.1 ≠ sharedName := by
    intro shared
    rw [shared] at named
    cases named
  split
  · rename_i there
    replace there := there.resolve_left unshared
    rw [← hasSection_iff, Bool.or_eq_true, beq_iff_eq]
    constructor
    · exact .inl
    · rintro (has | rfl)
      · exact has
      · exact there
  · rw [List.map_append, List.mem_append, ← hasSection_iff, Bool.or_eq_true, beq_iff_eq]
    show _ ∨ sec ∈ [entry.1] ↔ _
    rw [List.mem_singleton, eq_comm (a := sec)]

/-- A layer has the sections that are put into it and those it had before. -/
theorem Layer.hasSection_putAll (sec : String) {entries : List (String × Options)}
    (named : ∀ entry ∈ entries, isShared entry.1 = false) (l : Layer) :
    (entries.foldl put l).hasSection sec = (l.hasSection sec || entries.any (·.1 == sec)) := by
  induction entries generalizing l with
  | nil => simp
  | cons entry entries ih =>
    rw [List.forall_mem_cons] at named
    rw [List.foldl_cons, ih named.2, hasSection_put sec named.1, List.any_cons, Bool.or_assoc]

variable {vars : Variables} {given : List Overrides} {c : Config} {overrides : Overrides}

/-- Overrides of which no section has a name in small letters say nothing of an option that is asked
for. -/
theorem lastMention?_unseen (unseen : ∀ s ∈ overrides, LetterCase.small s.1 ≠ s.1) {sec : String}
    (small : LetterCase.small sec = sec) (key : String) :
    lastMention? (given ++ [overrides]) sec key = lastMention? given sec key := by
  have unsaid : (mentions (overrideEntries overrides)).reverse.lookup (sec, key) = none := by
    rw [List.lookup_eq_none_iff]
    intro mention hm
    rw [List.mem_reverse, mentions, List.mem_flatMap] at hm
    obtain ⟨entry, he, hm⟩ := hm
    rw [overrideEntries, List.mem_map] at he
    obtain ⟨s, hs, rfl⟩ := he
    obtain ⟨o, -, rfl⟩ := List.mem_map.1 hm
    rw [bne_iff_ne]
    intro same
    have spelled : sec = s.1 := congrArg Prod.fst same
    exact unseen s hs (spelled ▸ small)
  rw [lastMention?_snoc, unsaid, Option.none_or]

/-- Nor do they add a section that is asked for. -/
theorem Stands.hasSection_unseen (stands : Stands given c) (mild : Mild overrides)
    (unseen : ∀ s ∈ overrides, LetterCase.small s.1 ≠ s.1) {sec : String}
    (small : LetterCase.small sec = sec) :
    hasSection { c with overrides := Config.overlaid c.overrides overrides } sec =
      c.hasSection sec := by
  have absent : (overrideEntries overrides).any (·.1 == sec) = false := by
    rw [List.any_eq_false, overrideEntries, List.forall_mem_map]
    intro s hs same
    have spelled : s.1 = sec := beq_iff_eq.1 same
    exact unseen s hs (spelled ▸ small)
  unfold hasSection
  dsimp only
  rw [overlaid_eq stands.plain stands.own, hasSection_putAll sec mild.entries, absent,
    Bool.or_false]

/-- Plain overrides of which no section has a name in small letters take effect over a usable
configuration, whatever they say, and leave every option of a named section as it was. -/
theorem Stands.override_unseen (stands : Stands given c) (useful : usable vars given c.file = true)
    (mild : Mild overrides) (plain : PlainOverrides overrides)
    (unseen : ∀ s ∈ overrides, LetterCase.small s.1 ≠ s.1) :
    ∃ c' record, c.override vars overrides = (c', .ok record) ∧
      ∀ vars' sec key, sec ≠ "" → c'.get vars' sec key = c.get vars' sec key := by
  have stands' := stands.overlaid mild plain.toFillableOverrides
  have still : usable vars (given ++ [overrides]) c.file = true := by
    rw [usable, List.all_eq_true] at useful ⊢
    intro rule hr
    rw [layered?, lastMention?_unseen unseen (small_of_rule hr).1]
    exact useful rule hr
  rcases stands.plainConfig.override_outcomes vars plain.toFillableOverrides with
    ⟨-, ⟨record, eq⟩ | ⟨clash, -⟩⟩ | ⟨fault, -, failed, -⟩
  · refine ⟨_, record, eq, fun vars' sec key filled => ?_⟩
    have named := small_named filled
    have small := LetterCase.small_small sec
    unfold get
    rw [stands.find_told named, stands'.find_told named, stands'.said, stands.said,
      lastMention?_unseen unseen small, stands.hasSection_unseen mild unseen small]
  · exact absurd plain.loggable clash
  · rw [stands'.check_iff.2 still] at failed
    cases failed

/-- Under a name in capital letters the section of the parser is not there, and overrides that would
be rejected under its own name are taken. -/
theorem override_capital :
    bare.hasSection "parser" = true ∧ bare.hasSection "PARSER" = false ∧
      (∃ fault, bare.override [] [("parser", .object [(frontEndKey, .text "bogus")])] =
        (bare, .error fault)) ∧
      ∃ c record, bare.override [] [("PARSER", .object [(frontEndKey, .text "bogus")])] =
          (c, .ok record) ∧
        c.get [] "PARSER" frontEndKey = bare.get [] "PARSER" frontEndKey := by
  have stands : Stands [] bare := ⟨.empty, .empty, .empty, fun _ _ => rfl⟩
  refine ⟨by decide +kernel, by decide +kernel, ?_, ?_⟩
  · have plain : PlainOverrides (frontEndOverride "bogus") := frontEndOverride_plain (by decide)
    have mild : Mild (frontEndOverride "bogus") := frontEndOverride_mild (by decide)
    have settles := bare_plain.settles [] plain
    rcases stands.override mild settles with ⟨useful, -⟩ | ⟨-, rejected⟩
    · cases useful.symm.trans (by decide +kernel : usable [] _ bare.file = false)
    · exact rejected
  · have plain : PlainOverrides [("PARSER", .object [(frontEndKey, .text "bogus")])] := by
      have bogus : Fillable [(frontEndKey, "bogus")] := ⟨by simp, by decide⟩
      refine ⟨⟨by simp, ?_⟩, rfl⟩
      simpa [overrideOptions, overrideText, Datum.display] using bogus
    have mild : Mild [("PARSER", .object [(frontEndKey, .text "bogus")])] :=
      ⟨by simp; rfl, fun s hs => (plain.fillable s hs).literal⟩
    have useful : usable [] [] bare.file = true := by decide +kernel
    have unseen : LetterCase.small "PARSER" ≠ "PARSER" := by decide +kernel
    obtain ⟨c, record, eq, same⟩ :=
      stands.override_unseen useful mild plain (by simpa using unseen)
    exact ⟨c, record, eq, same [] "PARSER" frontEndKey (by decide)⟩

end Wdl.Config
