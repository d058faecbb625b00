/-!
# Wdl.Text.Range -- a piece of a text, by character positions

Tokens, syntax nodes and errors all carry a `Range`. It counts characters from the start of the
text; lines, columns and byte offsets are computed from it only when a span is shown.
-/

namespace Wdl

/-- The characters from position `start` up to, and not including, position `stop`. -/
structure Range where
  start : Nat
  stop : Nat
deriving DecidableEq, Repr, Inhabited

namespace Range

/-- From the start of the first range to the end of the last. -/
def join (first last : Range) : Range := ⟨first.start, last.stop⟩

@[simp] theorem join_start (a b : Range) : (a.join b).start = a.start := rfl
@[simp] theorem join_stop (a b : Range) : (a.join b).stop = b.stop := rfl
@[simp] theorem join_self (a : Range) : a.join a = a := rfl

/-- `inner` lies within `outer`. -/
def Within (inner outer : Range) : Prop := outer.start ≤ inner.start ∧ inner.stop ≤ outer.stop

instance (a b : Range) : Decidable (a.Within b) := inferInstanceAs (Decidable (_ ∧ _))

theorem Within.refl (a : Range) : a.Within a := ⟨Nat.le_refl _, Nat.le_refl _⟩

theorem Within.trans {a b c : Range} (ab : a.Within b) (bc : b.Within c) : a.Within c :=
  ⟨Nat.le_trans bc.1 ab.1, Nat.le_trans ab.2 bc.2⟩

end Range

end Wdl
