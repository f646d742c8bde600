import PackedForest.Graph.Basic

/-!
# Counting derivations

The number of derivations of a node is the sum over its edges of the products over their
tails; a node without edges counts as one. Sums and products stop at the greatest number of
128 bits. A node that is met again while it is being counted adds nothing.
-/

namespace PackedForest

/-- The greatest number of 128 bits. -/
def countLimit : Nat := 0xffffffffffffffffffffffffffffffff

def saturatingAdd (m n : Nat) : Nat := min (m + n) countLimit

def saturatingMul (m n : Nat) : Nat := min (m * n) countLimit

namespace Graph

/-- The numbers found so far, by node. The entry of a node that is still being counted is zero. -/
abbrev CountMemo := Std.TreeMap Nat Nat

/-- The number of derivations of a node. Every node on the way down is new to the memo, so the
fuel need not exceed the number of nodes. -/
def countFrom (g : Graph) : (fuel : Nat) → NodeId → StateM CountMemo Nat
  | 0, _ => return 0
  | fuel + 1, id => do
    if let some count := (← get)[id]? then return count
    let edges := g.edgesOf id
    if edges.isEmpty then
      modify (·.insert id 1)
      return 1
    modify (·.insert id 0)
    let total ← edges.foldlM (fun total edge => do
      let product ← edge.tails.foldlM (fun product tail => do
        return saturatingMul product (← countFrom g fuel tail)) 1
      return saturatingAdd total product) 0
    modify (·.insert id total)
    return total

/-- The number of derivations of a node. -/
def derivationCount (g : Graph) (id : NodeId) : Except Fault Nat := do
  let _ ← g.node id
  return ((g.countFrom (g.nodes.size + 1) id).run ∅).1

end Graph

end PackedForest
