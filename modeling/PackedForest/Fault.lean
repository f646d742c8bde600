import PackedForest.Decimal.Format

/-!
# Faults

A fault is a misuse of an operation by its caller: an index that no object has, an object that
may not be added, or a list that would take too many bytes. It is told apart from a malformed
input, which is an error of the reader concerned. An operation that meets a fault changes
nothing.
-/

namespace PackedForest

/-- The number of a word. A vocabulary numbers its words from zero; a negative number stands
for a slot of a rule and names no word. -/
abbrev WordId := Int

abbrev NodeId := Nat

abbrev EdgeId := Nat

inductive Fault
  | slotHasNoSymbol (id : WordId)
  | wordOutOfRange (id : WordId) (size : Nat)
  | indexOutOfRange (index size : Nat)
  | emptyLabels
  | nodeAlreadyAdded (id : NodeId)
  | newNodeHasEdges
  | nodeNotAdded
  | nodeOutOfRange (id : NodeId) (size : Nat)
  | edgeAlreadyAdded (id : EdgeId)
  | edgeNotAdded
  | edgeOutOfRange (id : EdgeId) (size : Nat)
  | tailOutOfRange (tail : NodeId)
  | improbableEdge (id : EdgeId) (probability : Float)
  | capacityOverflow

namespace Fault

/-- The text of a number that is no probability. -/
def invalidProbability (probability : Float) : String :=
  s!"invalid probability {Decimal.plainText probability}"

def message : Fault → String
  | slotHasNoSymbol id => s!"placeholder id {id} has no symbol"
  | wordOutOfRange id size => s!"word id {id} out of range (dict size {size})"
  | indexOutOfRange index size =>
    s!"index out of bounds: the len is {size} but the index is {index}"
  | emptyLabels => "head labels need at least a source label"
  | nodeAlreadyAdded id => s!"node Some(NodeId({id})) was already added to a graph"
  | newNodeHasEdges => "edges are attached through add_edge"
  | nodeNotAdded => "node has not been added to a graph"
  | nodeOutOfRange id size => s!"node {id} out of range (graph has {size})"
  | edgeAlreadyAdded id => s!"edge Some(EdgeId({id})) was already added to a graph"
  | edgeNotAdded => "edge has not been added to a graph"
  | edgeOutOfRange id size => s!"edge {id} out of range (graph has {size})"
  | tailOutOfRange tail => s!"tail {tail} out of range"
  | improbableEdge id probability => s!"edge Some(EdgeId({id})): {invalidProbability probability}"
  | capacityOverflow => "capacity overflow"

end Fault

/-- The most bytes that the items of a list may take. -/
def capacity : Nat := 0x7fffffffffffffff

/-- Refuses a list whose items take too many bytes. Their size is that of one item. -/
def reserve (size count : Nat) : Except Fault Unit :=
  if size * count ≤ capacity then .ok () else .error .capacityOverflow

end PackedForest
