import PackedForest.Chart
import PackedForest.Grammar

/-!
# Matching rules against a span

A match of a rule over a span cuts the span into pieces, one for each symbol of the source
side. The piece of a word is that word; the piece of a gap holds a node of the gap's labels. A
gap is never the whole span, since that is what unary rules are for, so every tail of a match
covers fewer words than the match.

Matches come in the order of the walk through the trie: the branch of the next word first, then
the gaps, each with its narrowest piece first.
-/

namespace PackedForest

/-- A rule with the nodes that fill its slots. -/
structure Match where
  rule : Rule
  tails : List NodeId

namespace Match

/-- The match with one more node in front of the others. -/
def withTail (tail : NodeId) (m : Match) : Match := { m with tails := tail :: m.tails }

/-- The matches that lead from a node of the trie through all the words that are left. `pos` is
the position of the first of them, and `start` that of the span. -/
def through (chart : Chart) (start : Nat) (t : Trie) (pos : Nat) : List WordId → List Match
  | [] => t.rules.map (⟨·, []⟩)
  | word :: words =>
    let byWord :=
      match t.child? (.word word) with
      | some child => through chart start child (pos + 1) words
      | none => []
    let widest := if pos = start then words.length else words.length + 1
    let byGap := t.gapBranches.flatMap fun (labels, child) =>
      (List.range widest).flatMap fun more =>
        match chart.find? ⟨pos, pos + more + 1⟩ labels with
        | some tail =>
          (through chart start child (pos + more + 1) (words.drop more)).map (withTail tail)
        | none => []
    byWord ++ byGap
termination_by words => words.length

end Match

/-- The matches of the rules of a grammar over the span of some words. -/
def Grammar.matching (g : Grammar) (chart : Chart) (start : Nat) (words : List WordId) :
    List Match :=
  if words.length ≤ g.spanLimit then Match.through chart start g.trie start words else []

end PackedForest
