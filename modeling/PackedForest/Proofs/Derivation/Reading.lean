import PackedForest.Proofs.Derivation.Layout
import PackedForest.Proofs.Forest.Sharing
import PackedForest.Proofs.Graph.Replay

/-!
# The trees of derivations

In a forest whose edges go by cuts of the spans of their heads (`Graph.Readable`), each derivation
has a tree. It stands over the span of its node, its leaves are the words there, and it has one
branch for each edge of the derivation, so no subtree is left out (`Derivation.Of.exists_reads`).
-/

namespace PackedForest

/-- An edge over a span comes of some symbols on a cut of the span: words stand in the sentence, and
the slots are those of the tails in order, with their spans. -/
def Graph.Spelled (g : Graph) (span : Span) (e : Edge) : Prop :=
  ∃ (symbols : List Symbol) (pieces : List Span), symbols.length = pieces.length ∧
    span.IsCut pieces ∧ (∀ x ∈ symbols.zip pieces, x.1.Fits g.words x.2) ∧
    e.tails.map g.spanOf? = (Symbol.gaps (symbols.zip pieces)).map fun gap => some gap.2

/-- The vocabulary names all words and symbols of a forest, and every node is built by edges that
go by cuts of its span. -/
structure Graph.Readable (g : Graph) (v : Vocabulary) : Prop where
  words : ∀ id ∈ g.words, v.Names id
  sym : ∀ {id : NodeId} {node : Node}, g.nodes[id]? = some node → v.Names node.sym
  built : ∀ {id : NodeId} {node : Node}, g.nodes[id]? = some node → node.edges ≠ []
  spelled : ∀ {id : NodeId} {node : Node}, g.nodes[id]? = some node →
    ∀ e ∈ g.edgesOf id, g.Spelled node.span e

namespace Derivation

variable {g : Graph} {v : Vocabulary}

/-- What holds of the tree of a derivation of a node. -/
structure Reads (g : Graph) (v : Vocabulary) (id : NodeId) (d : Derivation)
    (t : Tree String String) : Prop where
  tree : d.toTree v g.words = .ok t
  span : g.spanOf? id = some t.span
  read : t.ReadsBack v g.words
  count : t.branchCount = d.edges.length

theorem exists_toTrees {tails : List NodeId} {below : List Derivation}
    (each : List.Forall₂ (fun id d => ∃ t, Reads g v id d t) tails below) :
    ∃ subtrees, toTrees v g.words below = .ok subtrees ∧
      tails.map g.spanOf? = subtrees.map (fun t => some t.span) ∧
      (∀ t ∈ subtrees, t.ReadsBack v g.words) ∧
      Tree.branchCountBelow subtrees = (edgesBelow below).length := by
  induction each with
  | nil => exact ⟨[], rfl, rfl, by simp, rfl⟩
  | cons first _ ih =>
      obtain ⟨t, tree, span, read, count⟩ := first
      obtain ⟨subtrees, trees, spans, read_all, counts⟩ := ih
      refine ⟨t :: subtrees, ?_, ?_, List.forall_mem_cons.2 ⟨read, read_all⟩, ?_⟩
      · rw [toTrees, tree, trees]
        rfl
      · rw [List.map_cons, List.map_cons, span, spans]
      · rw [Tree.branchCountBelow, edgesBelow, List.length_append, count, counts]

/-- A derivation by an edge, with trees of the derivations below. -/
theorem exists_reads_step (readable : g.Readable v) {id : NodeId} {node : Node} {e : Edge}
    {below : List Derivation} (here : g.nodes[id]? = some node) (building : e ∈ g.edgesOf id)
    (each : List.Forall₂ (fun id d => ∃ t, Reads g v id d t) e.tails below) :
    ∃ t, Reads g v id (.step node e below) t := by
  obtain ⟨label, named⟩ := readable.sym here
  obtain ⟨symbols, pieces, length, cut, fits, tails⟩ := readable.spelled here e building
  obtain ⟨subtrees, trees, spans, read, count⟩ := exists_toTrees each
  have placed : subtrees.map Tree.span = (Symbol.gaps (symbols.zip pieces)).map (·.2) := by
    refine (List.map_inj_right fun _ _ => Option.some.inj).1 ?_
    rw [List.map_map, List.map_map]
    exact spans.symm.trans tails
  have in_order :
      (subtrees.mergeSort fun s t => decide (s.span.start ≤ t.span.start)) = subtrees := by
    refine List.mergeSort_of_pairwise ?_
    have pieces_in_order := cut.pairwise.sublist (Symbol.gaps_sublist length)
    rw [← placed, List.pairwise_map] at pieces_in_order
    exact pieces_in_order.imp decide_eq_true
  obtain ⟨children, laid, children_spans, children_read, children_count⟩ :=
    layout_eq readable.words length cut fits placed read
  refine ⟨.branch label node.span children, ?_, ?_, ?_, ?_⟩
  · rw [toTree, named, trees]
    dsimp only [bind, Except.bind]
    rw [in_order, laid]
    rfl
  · rw [Graph.spanOf?, here]
    rfl
  · exact .branch (children_spans ▸ cut) children_read
  · rw [Tree.branchCount, edges, List.length_cons, children_count, count, Nat.add_comm]

theorem Of.exists_reads (readable : g.Readable v) {id : NodeId} {d : Derivation}
    (derives : d.Of g id) : ∃ t, Reads g v id d t := by
  match d, derives with
  | .leaf node, .leaf here bare => exact absurd bare (readable.built here)
  | .step node e below, .step here building tails =>
    have each : ∀ d ∈ below, ∀ id, d.Of g id → ∃ t, Reads g v id d t :=
      fun d listed id derives => derives.exists_reads readable
    have derive_each := (List.forall₂_and_left ..).2 ⟨each, tails.flip⟩
    exact exists_reads_step readable here building
      (derive_each.imp fun d id h => h.1 id h.2).flip
termination_by d

end Derivation

end PackedForest
