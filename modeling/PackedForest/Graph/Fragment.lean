import PackedForest.Graph.Basic

/-!
# Fragments of a forest

A fragment is a list of edges, such as those of one derivation, with the product of their
probabilities. The product is kept as the edges come, so it depends on how the fragment was
put together.
-/

namespace PackedForest

/-- Some edges of a forest and the product of their probabilities. -/
structure Fragment where
  edges : List Edge
  probability : Float

namespace Fragment

def empty : Fragment := ⟨[], 1.0⟩

/-- Adds an edge at the end. -/
def addEdge (check : Bool) (f : Fragment) (e : Edge) : Except Fault Fragment :=
  return ⟨f.edges ++ [e], f.probability * (← e.checkedProbability check)⟩

/-- Adds the edges of another fragment at the end. -/
def append (f g : Fragment) : Fragment := ⟨f.edges ++ g.edges, f.probability * g.probability⟩

/-- The sum of the feature vectors of the edges. -/
def features (f : Fragment) : Features := f.edges.foldl (fun sum e => sum.add e.features) .empty

/-- The same probability, and the same edges up to small differences. -/
def agrees (f g : Fragment) : Bool :=
  f.probability == g.probability && f.edges.length == g.edges.length &&
    (f.edges.zip g.edges).all fun pair => pair.1.agrees pair.2

/-- The probability, and each edge by its head and tails. -/
def render (f : Fragment) : String :=
  let edges := f.edges.map fun e =>
    s!" {e.head}->[" ++ ", ".intercalate (e.tails.map toString) ++ "]"
  s!"[p={Decimal.plainText f.probability}]" ++ String.join edges

end Fragment

end PackedForest
