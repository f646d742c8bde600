/-!
# Sets of code points

A character property is written as the list of its ranges, in increasing order.
-/

namespace PackedForest.Text

/-- Closed ranges of code points. -/
abbrev CodePoints := List (Nat × Nat)

namespace CodePoints

/-- Whether the character's code point lies in one of the ranges. -/
def contains (points : CodePoints) (c : Char) : Bool :=
  points.any fun range => range.1 ≤ c.toNat && c.toNat ≤ range.2

theorem contains_eq_true_iff {points : CodePoints} {c : Char} :
    points.contains c = true ↔ ∃ range ∈ points, range.1 ≤ c.toNat ∧ c.toNat ≤ range.2 := by
  simp [contains]

end CodePoints

end PackedForest.Text
