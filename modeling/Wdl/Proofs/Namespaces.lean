import Mathlib.Data.List.TakeWhile
import Wdl.Proofs.Outcomes

/-!
# Wdl.Proofs.Namespaces -- the namespace that follows from a URI

An import without a name of its own takes it from its URI (`inferredNamespace`): the last path
segment, without query and extension. The segment is cut off first, and at the last slash of the
whole URI, so that a slash in the query counts as one of the path. A query without slashes is never
seen; of one with slashes the namespace is read, and nothing of the path.

* `before_append_cons` and `afterLast_append` say what is cut off in front of a character and behind
  its last occurrence.
* `inferredNamespace_query` and `inferredNamespace_path` give the namespace of a URI with a query
  and of a path.
* `importDoc_inferred` says when an import without a name is accepted: its namespace must be a name
  that is not reserved, or else the whole import is at fault.
-/

namespace Wdl.Build

/-! ## Cutting at a character -/

section Cutting

variable {c d : Char} {u v : List Char}

theorem before_eq_self (h : c ∉ u) : before c u = u :=
  List.takeWhile_eq_self_iff.2 fun _ hd => bne_iff_ne.2 (ne_of_mem_of_not_mem hd h)

/-- In front of its first occurrence is what is cut off. -/
theorem before_append_cons (h : c ∉ u) : before c (u ++ c :: v) = u := by
  unfold before
  rw [List.takeWhile_append_of_pos fun _ hd => bne_iff_ne.2 (ne_of_mem_of_not_mem hd h)]
  simp

theorem afterLast_eq_self (h : c ∉ u) : afterLast c u = u := by
  show (before c u.reverse).reverse = u
  rw [before_eq_self (by simpa using h), List.reverse_reverse]

theorem afterLast_append_cons (h : c ∉ v) : afterLast c (u ++ c :: v) = v := by
  show (before c (u ++ c :: v).reverse).reverse = v
  rw [List.reverse_append, List.reverse_cons, List.append_assoc, List.singleton_append,
    before_append_cons (by simpa using h), List.reverse_reverse]

/-- A character that occurs has a last place. -/
theorem exists_last (h : c ∈ u) : ∃ v w, u = v ++ c :: w ∧ c ∉ w := by
  obtain ⟨w, v, eq, hw⟩ := List.eq_append_cons_of_mem (List.mem_reverse.2 h)
  refine ⟨v.reverse, w.reverse, ?_, by simpa using hw⟩
  rw [← List.reverse_reverse u, eq]
  simp

/-- What stands before a text with the character in it does not count. -/
theorem afterLast_append_of_mem (h : c ∈ v) : afterLast c (u ++ v) = afterLast c v := by
  obtain ⟨v, w, rfl, hw⟩ := exists_last h
  rw [← List.append_assoc, afterLast_append_cons hw, afterLast_append_cons hw]

/-- Text behind the last occurrence stays behind it. -/
theorem afterLast_append (h : c ∉ v) : afterLast c (u ++ v) = afterLast c u ++ v := by
  by_cases hu : c ∈ u
  · obtain ⟨u, w, rfl, hw⟩ := exists_last hu
    rw [List.append_assoc, List.cons_append, afterLast_append_cons (by simp [hw, h]),
      afterLast_append_cons hw]
  · rw [afterLast_eq_self hu, afterLast_eq_self (by simp [hu, h])]

theorem mem_of_mem_afterLast (h : d ∈ afterLast c u) : d ∈ u := by
  have mem : d ∈ u.reverse.takeWhile (· != c) := List.mem_reverse.1 h
  exact List.mem_reverse.1 ((List.takeWhile_sublist _).subset mem)

end Cutting

/-! ## URIs -/

/-- A query without slashes does not count. Where it has one, it is taken for the end of the path:
the namespace is that of the query, whatever the path is. -/
theorem inferredNamespace_query {path query : List Char} (h : '?' ∉ path) :
    inferredNamespace (.ofChars (path ++ '?' :: query)) =
      inferredNamespace (.ofChars (if '/' ∈ query then query else path)) := by
  simp only [inferredNamespace, Text.chars_ofChars]
  by_cases slash : '/' ∈ query
  · -- the last slash is in the query, and so is all that is left
    rw [if_pos slash, afterLast_append_of_mem (List.mem_cons_of_mem _ slash),
      ← List.singleton_append, afterLast_append_of_mem slash]
  · -- the last segment of the path keeps the query, which is cut off then
    have segment : '?' ∉ afterLast '/' path := fun mem => h (mem_of_mem_afterLast mem)
    rw [if_neg slash, afterLast_append (by simp [slash]), before_append_cons segment,
      before_eq_self segment]

/-- Of a path, the last segment counts, up to its first dot. -/
theorem inferredNamespace_path {dir name ext : List Char}
    (dirs : dir = [] ∨ ∃ d, dir = d ++ ['/']) (exts : ext = [] ∨ ∃ e, ext = '.' :: e)
    (plain : ∀ c ∈ ['/', '?'], c ∉ name ++ ext) (dotless : '.' ∉ name) :
    inferredNamespace (.ofChars (dir ++ (name ++ ext))) = String.ofList name := by
  have segment : afterLast '/' (dir ++ (name ++ ext)) = name ++ ext := by
    have slashless : '/' ∉ name ++ ext := plain '/' (by simp)
    obtain rfl | ⟨d, rfl⟩ := dirs
    · exact afterLast_eq_self slashless
    · rw [List.append_assoc, List.singleton_append, afterLast_append_cons slashless]
  have stem : before '.' (name ++ ext) = name := by
    obtain rfl | ⟨e, rfl⟩ := exts
    · rw [List.append_nil, before_eq_self dotless]
    · exact before_append_cons dotless
  simp only [inferredNamespace, Text.chars_ofChars]
  rw [segment, before_eq_self (plain '?' (by simp)), stem]

/-- The second of two paths, taken from a query. -/
example : inferredNamespace (.ofString "lib/a.wdl?ref=x/b.wdl") = "b" := by decide

/-! ## Imports -/

/-- An import that gives no name is accepted, as far as its namespace is concerned, just if the one
that follows from its URI is a name and not reserved. Otherwise the whole import is at fault. -/
theorem importDoc_inferred {rules : Rules} {i : Surface.Import} {uri : Text}
    {aliases : List (String × String × Range)} (nameless : i.givenName = none)
    (read : quotedText rules.names i.uri = .ok uri)
    (renamed : i.aliases.mapM (importAlias rules) = .ok aliases) :
    importDoc rules i =
      if isNameText (inferredNamespace uri) ∧ inferredNamespace uri ∉ rules.reserved then
        (distinct .repeatedAlias [] aliases).map (⟨i.range, uri, inferredNamespace uri, ·⟩)
      else violate .badNamespace i.range := by
  simp only [importDoc, read, renamed, nameless, Option.map_none, Option.getD_none, bind,
    Except.bind]
  by_cases usable :
      isNameText (inferredNamespace uri) = true ∧ inferredNamespace uri ∉ rules.reserved
  · rw [if_pos usable, if_neg (by simp [usable])]
    cases distinct .repeatedAlias [] aliases <;> rfl
  · rw [if_neg usable, if_pos (by simpa [-not_and, not_and_or] using usable)]

end Wdl.Build
