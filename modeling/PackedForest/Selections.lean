/-!
# Selections

A selection picks one alternative from each of several lists. The selections come in the order
in which the pick from the first list changes fastest.
-/

namespace PackedForest

/-- Every way to pick one element from each list; from no lists, the empty pick. -/
def picks : List (List α) → List (List α)
  | [] => [[]]
  | alternatives :: rest => (picks rest).flatMap fun pick => alternatives.map (· :: pick)

/-- Every way to pick one element from each list. No lists leave nothing to pick. -/
def selections : List (List α) → List (List α)
  | [] => []
  | lists => picks lists

end PackedForest
