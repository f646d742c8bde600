import PackedForest.Vocabulary

/-!
# Label tuples

A node of a forest is built under a source label and one label for each target factor. Two
nodes over the same words are told apart by the whole tuple.
-/

namespace PackedForest

/-- A source label, and one label for each target factor. -/
structure Labels where
  source : WordId
  targets : List WordId
deriving DecidableEq, Repr

namespace Labels

/-- The source label first. -/
def toList (l : Labels) : List WordId := l.source :: l.targets

/-- The tuple of a list that has a source label. -/
def ofList : List WordId → Except Fault Labels
  | [] => .error .emptyLabels
  | source :: targets => .ok ⟨source, targets⟩

theorem ofList_toList (l : Labels) : ofList l.toList = .ok l := rfl

theorem toList_injective {l m : Labels} (h : l.toList = m.toList) : l = m := by
  cases l
  cases m
  simpa [toList] using h

/-- One label on the source side and for each of the target factors. -/
def uniform (label : WordId) (factors : Nat) : Labels := ⟨label, List.replicate factors label⟩

/-- The uniform tuple, unless it is too long. A label takes four bytes. -/
def tryUniform (label : WordId) (factors : Nat) : Except Fault Labels := do
  reserve 4 (factors + 1)
  return uniform label factors

def size (l : Labels) : Nat := l.toList.length

/-- The tuple with the label of one target factor set. -/
def setTarget (l : Labels) (factor : Nat) (label : WordId) : Labels :=
  { l with targets := l.targets.set factor label }

/-- Tuples are ordered as sequences of numbers. -/
instance : Ord Labels := ⟨fun l m => compare l.toList m.toList⟩

/-- The labels by name, parted by bars. -/
def render (v : Vocabulary) (l : Labels) : Except Fault String :=
  return "|".intercalate (← l.toList.mapM v.symbol)

end Labels

end PackedForest
