import PackedForest.Graph.Fragment
import PackedForest.Selections

/-!
# Derivations

A derivation of a node is one of the edges that build it, with a derivation of each tail. A node
without edges has one derivation, which is empty. Written down, a derivation is the fragment
of its edges in preorder.

The enumeration keeps at most `limit` derivations of each node it passes, and stops at an edge
when it has that many. A node that is met again below itself has none there, so a cycle adds
nothing.
-/

namespace PackedForest

/-- A node without edges, or a node built by one of its edges from derivations of the tails. -/
inductive Derivation
  | leaf (node : Node)
  | step (node : Node) (edge : Edge) (below : List Derivation)

namespace Derivation

/-- The node that is derived. -/
def node : Derivation → Node
  | leaf node => node
  | step node _ _ => node

mutual

/-- The edges, each before those of the derivations below it. -/
def edges : Derivation → List Edge
  | leaf _ => []
  | step _ edge below => edge :: edgesBelow below

def edgesBelow : List Derivation → List Edge
  | [] => []
  | d :: below => d.edges ++ edgesBelow below

end

mutual

/-- The product of the edge probabilities: that of the edge, times those of the derivations
below it in turn. -/
def probability : Derivation → Float
  | leaf _ => 1.0
  | step _ edge below => timesBelow (1.0 * edge.probability) below

def timesBelow (product : Float) : List Derivation → Float
  | [] => product
  | d :: below => timesBelow (product * d.probability) below

end

/-- The derivation as a fragment of its forest. -/
def fragment (d : Derivation) : Fragment := ⟨d.edges, d.probability⟩

/-- The derivations found so far, by node. The entry of a node that is still being worked on is
empty. -/
abbrev Memo := Std.TreeMap Nat (List Derivation)

/-- What the enumeration runs in. The memo is lost with a fault. -/
abbrev Enumerating := StateT Memo (Except Fault)

/-- The derivations by one edge, for given derivations of its tails, as many as there is room
for. The edge is used only if there is one. -/
def byEdge (check : Bool) (room : Nat) (node : Node) (edge : Edge)
    (below : List (List Derivation)) : Except Fault (List Derivation) := do
  let picked := if edge.tails.isEmpty then [[]] else (selections below).take room
  if !picked.isEmpty then let _ ← edge.checkedProbability check
  return picked.map (step node edge)

/-- The derivations of a node. Every node on the way down is new to the memo, so the fuel need
not exceed the number of nodes. -/
def enumerate (g : Graph) (check : Bool) (limit : Nat) :
    (fuel : Nat) → NodeId → Enumerating (List Derivation)
  | 0, _ => return []
  | fuel + 1, id => do
    if let some found := (← get)[id]? then return found
    let node ← g.node id
    if node.edges.isEmpty then return [leaf node]
    modify (·.insert id [])
    let found ← (g.edgesOf id).foldlM (fun (found : List Derivation) edge => do
      if limit ≤ found.length then return found
      let below ← edge.tails.mapM (enumerate g check limit fuel)
      return found ++ (← byEdge check (limit - found.length) node edge below)) []
    modify (·.insert id found)
    return found

end Derivation

/-- Up to `limit` derivations of a node. With `check`, an edge whose probability is out of range
is a fault when it is used. -/
def Graph.derivations (g : Graph) (check : Bool) (id : NodeId) (limit : Nat) :
    Except Fault (List Derivation) :=
  return (← (Derivation.enumerate g check limit (g.nodes.size + 1) id).run ∅).1

end PackedForest
