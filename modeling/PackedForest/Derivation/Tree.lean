import PackedForest.Derivation
import PackedForest.Tree

/-!
# Derivations as trees

The tree of a derivation has a branch for each node, labelled with its symbol. The subtrees of
the tails stand where their spans do, and the words of the sentence that no tail covers are
leaves between them.
-/

namespace PackedForest

/-- The leaf of a position. A position beyond the sentence shows a question mark. -/
def leafAt (v : Vocabulary) (words : List WordId) (pos : Nat) :
    Except Fault (Tree String String) := do
  let word ←
    match words[pos]? with
    | some id => v.symbol id
    | none => pure "?"
  return .leaf word ⟨pos, pos + 1⟩

/-- Lays out subtrees, in the order of where they start, from a position up to `stop`. A subtree
that does not start where the layout has come to waits, and words fill the gap. -/
def layout (v : Vocabulary) (words : List WordId) (stop pos : Nat)
    (subtrees : List (Tree String String)) : Except Fault (List (Tree String String)) :=
  if pos < stop then
    match subtrees with
    | t :: rest =>
      if t.span.start = pos then
        return t :: (← layout v words stop (max t.span.stop (pos + 1)) rest)
      else return (← leafAt v words pos) :: (← layout v words stop (pos + 1) subtrees)
    | [] => return (← leafAt v words pos) :: (← layout v words stop (pos + 1) subtrees)
  else return []
termination_by stop - pos

namespace Derivation

mutual

/-- The tree of a derivation over the words of a sentence. -/
def toTree (v : Vocabulary) (words : List WordId) :
    Derivation → Except Fault (Tree String String)
  | leaf node => return .branch (← v.symbol node.sym) node.span []
  | step node _ below => do
    let label ← v.symbol node.sym
    let subtrees ← toTrees v words below
    let ordered := subtrees.mergeSort fun s t => s.span.start ≤ t.span.start
    return .branch label node.span (← layout v words node.span.stop node.span.start ordered)

def toTrees (v : Vocabulary) (words : List WordId) :
    List Derivation → Except Fault (List (Tree String String))
  | [] => return []
  | d :: below => return (← d.toTree v words) :: (← toTrees v words below)

end

end Derivation

/-- The trees of up to `limit` derivations of a node. -/
def Graph.derivationTrees (g : Graph) (v : Vocabulary) (check : Bool) (id : NodeId)
    (limit : Nat) : Except Fault (List (Tree String String)) := do
  (← g.derivations check id limit).mapM (·.toTree v g.words)

end PackedForest
