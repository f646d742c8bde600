import PackedForest.Graph.Basic

/-!
# Forests as text

A forest is shown by its words and its nodes, and below each node the edges that build it. An
edge is shown by its head, its tails, its probability, its target sides and its features.
-/

namespace PackedForest

/-- A symbol of a target side; a slot stands for the tail it refers to. -/
def Symbol.render (v : Vocabulary) : Symbol → Except Fault String
  | .slot index => return s!"x{index}"
  | .word id => v.symbol id

namespace Edge

/-- The target sides, after a colon and parted by bars. -/
def renderTargets (v : Vocabulary) (targets : List (List Symbol)) : Except Fault String := do
  let sides ← targets.mapM fun side => do
    let symbols ← side.mapM (Symbol.render v)
    return String.join (symbols.map (" " ++ ·))
  return if sides.isEmpty then "" else " :" ++ " |".intercalate sides

def render (v : Vocabulary) (e : Edge) : Except Fault String := do
  let tails := String.join (e.tails.map fun tail => s!" {tail}")
  let targets ← renderTargets v e.targets
  let features ←
    if e.features.isEmpty then pure ""
    else do
      let features ← e.features.render v
      pure (" " ++ features)
  return s!"{e.head} ->{tails} [p={Decimal.plainText e.probability}]{targets}{features}"

end Edge

namespace Graph

def renderNode (v : Vocabulary) (g : Graph) (n : Node) : Except Fault String := do
  let symbol ← v.symbol n.sym
  let edges ← n.edges.mapM fun id => do
    let e ← g.edge id
    return "  " ++ (← e.render v) ++ "\n"
  return s!"node {n.id} {n.span.start}..{n.span.stop}: {symbol}\n" ++ String.join edges

def render (v : Vocabulary) (g : Graph) : Except Fault String := do
  let words ← v.phrase g.words
  let nodes ← g.nodes.toList.mapM (g.renderNode v)
  return s!"words: {words}\n" ++ String.join nodes

end Graph

end PackedForest
