import Std.Data.TreeMap

/-!
# Spans

A span is a stretch of the input between two positions. Spans are ordered by where they start,
then by where they stop.
-/

namespace PackedForest

/-- The positions from `start` up to and without `stop`. -/
structure Span where
  start : Nat
  stop : Nat
deriving DecidableEq, Repr

namespace Span

instance : Ord Span := ⟨compareLex (compareOn Span.start) (compareOn Span.stop)⟩

theorem compare_eq (s t : Span) :
    compare s t = (compare s.start t.start).then (compare s.stop t.stop) := rfl

instance : Std.TransOrd Span :=
  inferInstanceAs (Std.TransCmp (compareLex (compareOn Span.start) (compareOn Span.stop)))

instance : Std.LawfulEqOrd Span where
  eq_of_compare {s t} h := by
    rw [compare_eq, Ordering.then_eq_eq, Nat.compare_eq_eq, Nat.compare_eq_eq] at h
    cases s
    cases t
    simp_all

/-- The spans over `size` positions that are not empty, narrow ones first, and those of one
width from left to right. -/
def upTo (size : Nat) : List Span :=
  (List.range size).flatMap fun wide =>
    (List.range (size - wide)).map fun start => ⟨start, start + wide + 1⟩

end Span

end PackedForest
