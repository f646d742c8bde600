import PackedForest.Graph.Basic

/-!
# Charts

A chart finds the node of a span and a label tuple. There is at most one, so all derivations of
that span under that tuple share it.
-/

namespace PackedForest

/-- The nodes of each span, in the order in which they were added. -/
structure Chart where
  cells : Std.TreeMap Span (List (Labels × NodeId))

namespace Chart

def empty : Chart := ⟨∅⟩

/-- The nodes over exactly this span. -/
def cell (c : Chart) (span : Span) : List (Labels × NodeId) := c.cells[span]?.getD []

/-- The node of a span and a label tuple. -/
def find? (c : Chart) (span : Span) (labels : Labels) : Option NodeId :=
  (c.cell span).lookup labels

/-- Whether a node covers exactly this span. -/
def covers (c : Chart) (span : Span) : Bool := !(c.cell span).isEmpty

/-- Adds a node to those of a span. -/
def insert (c : Chart) (span : Span) (labels : Labels) (id : NodeId) : Chart :=
  ⟨c.cells.insert span (c.cell span ++ [(labels, id)])⟩

@[simp] theorem cell_empty (span : Span) : empty.cell span = [] := by
  simp [empty, cell]

@[simp] theorem cell_insert (c : Chart) (span other : Span) (labels : Labels) (id : NodeId) :
    (c.insert span labels id).cell other =
      if span = other then c.cell span ++ [(labels, id)] else c.cell other := by
  simp only [cell, insert, Std.TreeMap.getElem?_insert, Std.compare_eq_iff_eq]
  split <;> rfl

/-- The number of nodes. -/
def size (c : Chart) : Nat := (c.cells.toList.flatMap (·.2)).length

/-- Every node with its span and label tuple, in increasing order of span and tuple. -/
def entries (c : Chart) : List (Span × Labels × NodeId) :=
  c.cells.toList.flatMap fun (span, nodes) =>
    (nodes.mergeSort fun a b => (compare a.1 b.1).isLE).map fun (labels, id) => (span, labels, id)

end Chart

/-- A graph with the chart that finds its nodes. -/
structure Forest where
  graph : Graph
  chart : Chart

namespace Forest

/-- Whether the forest has a node with this key, and the forest with such a node. -/
def findOrAdd (f : Forest) (span : Span) (labels : Labels) : NodeId × Bool × Forest :=
  match f.chart.find? span labels with
  | some id => (id, false, f)
  | none =>
    let id := f.graph.nodes.size
    (id, true,
      ⟨f.graph.pushNode (.new labels.source span), f.chart.insert span labels id⟩)

end Forest

end PackedForest
