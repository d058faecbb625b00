import Mathlib.Data.List.Nodup
import Mathlib.Data.List.Perm.Subperm
import Wdl.Ast.View

/-!
# Wdl.Proofs.Comparison -- comparing views part by part

`View.same` compares normal forms. `View.Agrees` is the comparison that these stand for: part by
part, numbers by their values, lists from the first item to the last, and a mapping entry by entry,
each looked up in the other mapping by its key. Where no key occurs twice the two are the same
relation (`View.same_iff_agrees`). So the comparison part by part, which looks from one side to the
other, does not depend on the side, and it can be chained.
-/

namespace Wdl

namespace Binary64

/-- Two numbers have one normal form if they have one value. -/
theorem normalFloat_eq_iff {x y : Binary64} :
    View.normalFloat x = View.normalFloat y ↔ x.sameValue y = true := by
  obtain ⟨s, m, hm⟩ := x
  obtain ⟨t, n, hn⟩ := y
  simp only [View.normalFloat, sameValue, Bool.and_eq_true, Bool.or_eq_true, beq_iff_eq]
  split <;> split <;> grind

end Binary64

namespace View

/-! ## Views whose mappings have keys -/

mutual

/-- No key occurs twice in a mapping, at any depth. -/
def Keyed : View → Prop
  | .list items => KeyedItems items
  | .tuple items => KeyedItems items
  | .mapping entries => (entries.map Prod.fst).Nodup ∧ KeyedEntries entries
  | .node _ fields => KeyedEntries fields
  | .null | .boolean _ | .int _ | .float _ | .text _ => True

/-- No key occurs twice in a mapping among some views. -/
def KeyedItems : List View → Prop
  | [] => True
  | x :: rest => x.Keyed ∧ KeyedItems rest

/-- No key occurs twice in a mapping among some named views. -/
def KeyedEntries : List (String × View) → Prop
  | [] => True
  | (_, x) :: rest => x.Keyed ∧ KeyedEntries rest

end

/-- No mapping in some entries has a key twice just if this holds of each entry. -/
theorem keyedEntries_iff {xs : List (String × View)} :
    KeyedEntries xs ↔ ∀ x ∈ xs, x.2.Keyed := by
  induction xs with
  | nil => simp [KeyedEntries]
  | cons x xs ih => simp [KeyedEntries, ih]

/-! ## Comparing part by part -/

mutual

/-- Two views agree in every part. -/
def Agrees : View → View → Prop
  | .null, .null => True
  | .boolean a, .boolean b => a = b
  | .int a, .int b => a = b
  | .float a, .float b => a.sameValue b = true
  | .text a, .text b => a = b
  | .list xs, .list ys => AgreesItems xs ys
  | .tuple xs, .tuple ys => AgreesItems xs ys
  | .mapping xs, .mapping ys => xs.length = ys.length ∧ AgreesEntries xs ys
  | .node k xs, .node l ys => k = l ∧ AgreesFields xs ys
  | _, _ => False

/-- Two lists agree item by item. -/
def AgreesItems : List View → List View → Prop
  | [], [] => True
  | x :: xs, y :: ys => x.Agrees y ∧ AgreesItems xs ys
  | _, _ => False

/-- The fields of two nodes agree one by one. -/
def AgreesFields : List (String × View) → List (String × View) → Prop
  | [], [] => True
  | (j, x) :: xs, (k, y) :: ys => j = k ∧ x.Agrees y ∧ AgreesFields xs ys
  | _, _ => False

/-- Each entry agrees with what a mapping has under its key. -/
def AgreesEntries : List (String × View) → List (String × View) → Prop
  | [], _ => True
  | (key, x) :: xs, ys => (∃ y, ys.lookup key = some y ∧ x.Agrees y) ∧ AgreesEntries xs ys

end

/-! ## Mappings -/

theorem normalItems_eq (xs : List View) : normalItems xs = xs.map normal := by
  induction xs with
  | nil => rfl
  | cons x xs ih => rw [normalItems, ih, List.map_cons]

theorem normalEntries_eq (xs : List (String × View)) :
    normalEntries xs = xs.map fun x => (x.1, x.2.normal) := by
  induction xs with
  | nil => rfl
  | cons x xs ih => rw [normalEntries, ih, List.map_cons]

@[simp] theorem normalEntries_keys (xs : List (String × View)) :
    (normalEntries xs).map Prod.fst = xs.map Prod.fst := by
  simp [normalEntries_eq]

@[simp] theorem normalEntries_length (xs : List (String × View)) :
    (normalEntries xs).length = xs.length := by
  simp [normalEntries_eq]

theorem entryLe_trans (a b c : String × View) (ab : entryLe a b = true) (bc : entryLe b c = true) :
    entryLe a c = true := by
  simp only [entryLe, decide_eq_true_eq, String.not_lt] at *
  exact String.le_trans ab bc

theorem entryLe_total (a b : String × View) : (entryLe a b || entryLe b a) = true := by
  simp only [entryLe, Bool.or_eq_true, decide_eq_true_eq, String.not_lt]
  exact String.le_total a.1 b.1

/-- Sorting forgets the order of entries, and nothing else. -/
theorem mergeSort_entryLe_eq_iff {xs ys : List (String × View)} (keys : (xs.map Prod.fst).Nodup) :
    xs.mergeSort entryLe = ys.mergeSort entryLe ↔ xs.Perm ys := by
  constructor
  · intro sorted
    exact (List.mergeSort_perm xs entryLe).symm.trans
      (sorted ▸ List.mergeSort_perm ys entryLe)
  · intro perm
    have perm' : (xs.mergeSort entryLe).Perm (ys.mergeSort entryLe) :=
      (List.mergeSort_perm xs _).trans (perm.trans (List.mergeSort_perm ys _).symm)
    -- two entries of which neither comes first have one key, so they are one entry
    have antisymm : ∀ a b, a ∈ xs.mergeSort entryLe → b ∈ ys.mergeSort entryLe →
        entryLe a b = true → entryLe b a = true → a = b := by
      intro a b inXs inYs ab ba
      simp only [entryLe, decide_eq_true_eq, String.not_lt] at ab ba
      have memA := (List.mergeSort_perm xs entryLe).mem_iff.1 inXs
      have memB := perm.mem_iff.2 ((List.mergeSort_perm ys entryLe).mem_iff.1 inYs)
      exact List.inj_on_of_nodup_map keys memA memB (String.le_antisymm ab ba)
    exact perm'.eq_of_pairwise antisymm
      (List.pairwise_mergeSort entryLe_trans entryLe_total _)
      (List.pairwise_mergeSort entryLe_trans entryLe_total _)

/-- Looking a key up finds the one entry that has it. -/
theorem lookup_eq_some_iff {κ α : Type} [DecidableEq κ] {xs : List (κ × α)}
    (keys : (xs.map Prod.fst).Nodup) {key : κ} {x : α} :
    xs.lookup key = some x ↔ (key, x) ∈ xs := by
  induction xs with
  | nil => simp
  | cons head xs ih =>
    obtain ⟨k, y⟩ := head
    rw [List.map_cons, List.nodup_cons] at keys
    by_cases same : key = k
    · subst same
      have absent : (key, x) ∉ xs := fun mem => keys.1 (List.mem_map.2 ⟨_, mem, rfl⟩)
      simp [absent, eq_comm]
    · rw [List.lookup_cons, beq_false_of_ne same, List.mem_cons, ih keys.2]
      simp [same]

/-- Two mappings are the same but for their order if they have as many entries and each entry of one
is found in the other. -/
theorem perm_iff_lookup {α : Type} {xs ys : List (String × α)} (keys : (xs.map Prod.fst).Nodup)
    (keys' : (ys.map Prod.fst).Nodup) :
    xs.Perm ys ↔ xs.length = ys.length ∧ ∀ x ∈ xs, ys.lookup x.1 = some x.2 := by
  constructor
  · intro perm
    exact ⟨perm.length_eq, fun x mem => (lookup_eq_some_iff keys').2 (perm.mem_iff.1 mem)⟩
  · rintro ⟨length, found⟩
    have sub : xs ⊆ ys := fun x mem => (lookup_eq_some_iff keys').1 (found x mem)
    exact (keys.of_map.subperm sub).perm_of_length_le (Nat.le_of_eq length.symm)

theorem lookup_normalEntries (key : String) (ys : List (String × View)) :
    (normalEntries ys).lookup key = (ys.lookup key).map normal := by
  induction ys with
  | nil => rfl
  | cons y ys ih =>
    obtain ⟨k, y⟩ := y
    simp only [normalEntries, List.lookup_cons, ih]
    split <;> rfl

/-- The normal forms of two mappings are the same if the values under each key have the same. -/
theorem normal_mapping_eq_iff {xs ys : List (String × View)} (keys : (xs.map Prod.fst).Nodup)
    (keys' : (ys.map Prod.fst).Nodup) :
    (mapping xs).normal = (mapping ys).normal ↔ xs.length = ys.length ∧
      ∀ x ∈ xs, ∃ y, ys.lookup x.1 = some y ∧ x.2.normal = y.normal := by
  rw [normal, normal, mapping.injEq, mergeSort_entryLe_eq_iff (by simpa using keys),
    perm_iff_lookup (by simpa using keys) (by simpa using keys')]
  simp only [normalEntries_length, lookup_normalEntries, Option.map_eq_some_iff]
  rw [normalEntries_eq, List.forall_mem_map]
  simp only [eq_comm]

/-! ## Normal forms -/

mutual

/-- Views agree in every part if they have the same normal form. -/
theorem agrees_iff : (a b : View) → a.Keyed → b.Keyed → (a.Agrees b ↔ a.normal = b.normal)
  | .null, b, _, _ => by cases b <;> simp [Agrees, normal]
  | .boolean _, b, _, _ => by cases b <;> simp [Agrees, normal]
  | .int _, b, _, _ => by cases b <;> simp [Agrees, normal]
  | .float _, b, _, _ => by cases b <;> simp [Agrees, normal, Binary64.normalFloat_eq_iff]
  | .text _, b, _, _ => by cases b <;> simp [Agrees, normal]
  | .list xs, b, ha, hb => by
    cases b with
    | list ys => simpa [Agrees, normal] using agreesItems_iff xs ys ha hb
    | _ => simp [Agrees, normal]
  | .tuple xs, b, ha, hb => by
    cases b with
    | tuple ys => simpa [Agrees, normal] using agreesItems_iff xs ys ha hb
    | _ => simp [Agrees, normal]
  | .mapping xs, b, ha, hb => by
    cases b with
    | mapping ys =>
      rw [normal_mapping_eq_iff ha.1 hb.1, Agrees, agreesEntries_iff xs ys ha.2 hb.2]
    | _ => simp [Agrees, normal]
  | .node k xs, b, ha, hb => by
    cases b with
    | node l ys => simpa [Agrees, normal] using fun _ => agreesFields_iff xs ys ha hb
    | _ => simp [Agrees, normal]

theorem agreesItems_iff : (xs ys : List View) → KeyedItems xs → KeyedItems ys →
    (AgreesItems xs ys ↔ normalItems xs = normalItems ys)
  | [], [], _, _ => by simp [AgreesItems]
  | [], _ :: _, _, _ | _ :: _, [], _, _ => by simp [AgreesItems, normalItems]
  | x :: xs, y :: ys, hx, hy => by
    rw [AgreesItems, agrees_iff x y hx.1 hy.1, agreesItems_iff xs ys hx.2 hy.2]
    simp [normalItems]

theorem agreesFields_iff : (xs ys : List (String × View)) → KeyedEntries xs → KeyedEntries ys →
    (AgreesFields xs ys ↔ normalEntries xs = normalEntries ys)
  | [], [], _, _ => by simp [AgreesFields]
  | [], _ :: _, _, _ | _ :: _, [], _, _ => by simp [AgreesFields, normalEntries]
  | (j, x) :: xs, (k, y) :: ys, hx, hy => by
    rw [AgreesFields, agrees_iff x y hx.1 hy.1, agreesFields_iff xs ys hx.2 hy.2]
    simp [normalEntries, and_assoc]

theorem agreesEntries_iff : (xs ys : List (String × View)) → KeyedEntries xs → KeyedEntries ys →
    (AgreesEntries xs ys ↔ ∀ x ∈ xs, ∃ y, ys.lookup x.1 = some y ∧ x.2.normal = y.normal)
  | [], _, _, _ => by simp [AgreesEntries]
  | (key, x) :: xs, ys, hx, hy => by
    have each : ∀ y, ys.lookup key = some y → (x.Agrees y ↔ x.normal = y.normal) := by
      intro y found
      obtain ⟨before, behind, rfl, -⟩ := List.lookup_eq_some_iff.1 found
      exact agrees_iff x y hx.1 (keyedEntries_iff.1 hy (key, y) (by simp))
    rw [AgreesEntries, agreesEntries_iff xs ys hx.2 hy, List.forall_mem_cons]
    refine and_congr_left fun _ => exists_congr fun y => and_congr_right fun found => each y found

end

/-- Comparing normal forms is comparing part by part. -/
theorem same_iff_agrees {a b : View} (ha : a.Keyed) (hb : b.Keyed) :
    a.same b = true ↔ a.Agrees b :=
  same_iff.trans (agrees_iff a b ha hb).symm

end View

end Wdl
