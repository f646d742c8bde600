import PackedForest.Proofs.Graph.Unfolding
import PackedForest.Proofs.Parser.Unaries

/-!
# Forests have no cycles

The tails of a rule that is not unary stand on narrower spans than the head, and the unary edges on
one span have no cycle. So a node ranks by the width of its span first, and among the nodes of
a span by what its unary edges lead to. Neither the numbers of the nodes nor the order of the edges
would do: a unary rule may lead from an older node to a newer one.

No recursion over the forest meets a node below itself, then, and counting and enumerating
derivations never fall back on the entry of a node in progress.
-/

namespace PackedForest

/-- Nodes rank by the width of their spans, then by what the unary edges on the span lead to. -/
def Graph.rank (g : Graph) (id : NodeId) : Nat :=
  match g.spanOf? id with
  | none => 0
  | some span => (span.stop - span.start) * (g.edges.size + 1) +
      Reachability.rank (g.unaryLinks span) id

theorem Graph.rank_of_span {g : Graph} {id : NodeId} {span : Span}
    (here : g.spanOf? id = some span) : g.rank id =
      (span.stop - span.start) * (g.edges.size + 1) +
        Reachability.rank (g.unaryLinks span) id := by
  rw [rank, here]

/-- A unary edge is one link, so there are no more links than edges. -/
theorem Graph.length_unaryLinks_le (g : Graph) (span : Span) :
    (g.unaryLinks span).length ≤ g.edges.size := by
  have one : ∀ e ∈ g.unaryEdges span, (e.tails.map (e.head, ·)).length = 1 := by
    intro e listed
    have unary := (List.mem_filter.1 listed).2
    rw [unaryOn, Bool.and_eq_true] at unary
    have same := unary.1
    unfold sameSpan at same
    split at same
    · next tail only => rw [show e.tails = [tail] from only]; rfl
    · cases same
  calc (g.unaryLinks span).length
      = ((g.unaryEdges span).map fun e => (e.tails.map (e.head, ·)).length).sum :=
        List.length_flatMap
    _ = ((g.unaryEdges span).map fun _ => 1).sum := by rw [List.map_congr_left one]
    _ = (g.unaryEdges span).length := by simp
    _ ≤ g.edges.toList.length := List.length_filter_le ..
    _ = g.edges.size := Array.length_toList

namespace Parser.Filled

variable {p : Parser} {sentence : List WordId} {fills : List Fill}

/-- An edge of the forest has its tails on narrower spans, or is a unary edge on one span. -/
theorem edge_cases (h : p.Filled sentence fills) {e : Edge}
    (stored : e ∈ (p.parse sentence).graph.edges.toList) :
    ∃ span ∈ Span.upTo sentence.length, (p.parse sentence).graph.spanOf? e.head = some span ∧
      ((∀ t ∈ e.tails, ∃ piece, (p.parse sentence).graph.spanOf? t = some piece ∧
          piece.stop - piece.start < span.stop - span.start) ∨
        ∃ t, e.tails = [t] ∧ (p.parse sentence).graph.spanOf? t = some span ∧
          (e.head, t) ∈ (p.parse sentence).graph.unaryLinks span) := by
  obtain ⟨x, member, a, made, found, edge⟩ := h.edge_made stored
  have known := h.span_mem member
  have tails_eq : e.tails = a.tails := congrArg EdgeRecord.tails edge
  refine ⟨x.span, known, h.wellFormed.spanOf?_eq found, ?_⟩
  rcases made with walked | ⟨u, used, rfl⟩
  · refine .inl fun t filled => ?_
    rw [tails_eq] at filled
    obtain ⟨piece, labels, inside, other, tail_found⟩ := tails_found known walked filled
    exact ⟨piece, h.wellFormed.spanOf?_eq tail_found,
      inside.narrower other (Span.mem_upTo.1 known).1⟩
  · obtain ⟨⟨labels, tail_found⟩, head_found⟩ := (h.sound x member).between u used
    have head_eq : e.head = u.head := Option.some.inj (found.symm.trans head_found)
    rw [h.unaryLinks member, head_eq]
    exact .inr ⟨u.tail, tails_eq, h.wellFormed.spanOf?_eq tail_found, List.mem_map_of_mem used⟩

theorem ranked (h : p.Filled sentence fills) :
    (p.parse sentence).graph.Ranked (p.parse sentence).graph.rank := by
  intro e stored t listed
  obtain ⟨span, known, head_span, lower⟩ := h.edge_cases stored
  obtain ⟨x, member, rfl⟩ := h.exists_fill known
  rcases lower with narrower | ⟨tail, only, tail_span, link⟩
  · obtain ⟨piece, tail_span, width⟩ := narrower t listed
    rw [Graph.rank_of_span head_span, Graph.rank_of_span tail_span]
    have bound := Nat.le_trans (Reachability.rank_le _ t)
      ((p.parse sentence).graph.length_unaryLinks_le piece)
    calc (piece.stop - piece.start) * ((p.parse sentence).graph.edges.size + 1) +
          Reachability.rank ((p.parse sentence).graph.unaryLinks piece) t
        < (piece.stop - piece.start) * ((p.parse sentence).graph.edges.size + 1) +
            ((p.parse sentence).graph.edges.size + 1) :=
          Nat.add_lt_add_left (Nat.lt_succ_of_le bound) _
      _ = (piece.stop - piece.start + 1) * ((p.parse sentence).graph.edges.size + 1) :=
          (Nat.succ_mul _ _).symm
      _ ≤ (x.span.stop - x.span.start) * ((p.parse sentence).graph.edges.size + 1) :=
          Nat.mul_le_mul_right _ width
      _ ≤ _ := Nat.le_add_right _ _
  · rw [only, List.mem_singleton] at listed
    subst listed
    have acyclic := (h.sound x member).acyclic
    rw [← h.unaryLinks member] at acyclic
    rw [Graph.rank_of_span head_span, Graph.rank_of_span tail_span]
    exact Nat.add_lt_add_left (acyclic.rank_lt link) _

end Parser.Filled

theorem Parser.graph_indexed (p : Parser) (sentence : List WordId) :
    (p.parse sentence).graph.Indexed :=
  have ⟨_, filled⟩ := p.parse_filled sentence
  filled.wellFormed.indexed

/-- No node of a forest is below itself. -/
theorem Parser.graph_acyclic (p : Parser) (sentence : List WordId) :
    (p.parse sentence).graph.Acyclic :=
  have ⟨_, filled⟩ := p.parse_filled sentence
  filled.ranked.acyclic

/-- Every forest can be ranked, so that the tails of an edge are below its head; and neither
counting nor enumerating derivations meets a node that is still in progress. -/
theorem Parser.parse_acyclic (p : Parser) (sentence : List WordId) :
    (∃ rank, (p.parse sentence).graph.Ranked rank) ∧
    (∀ fuel id memo, ((p.parse sentence).graph.countWatched fuel [] id).run memo =
      some (((p.parse sentence).graph.countFrom fuel id).run memo)) ∧
    ∀ check limit fuel id memo,
      ((Derivation.enumerateWatched (p.parse sentence).graph check limit fuel [] id).run memo).run =
        some ((Derivation.enumerate (p.parse sentence).graph check limit fuel id).run memo) := by
  obtain ⟨fills, h⟩ := p.parse_filled sentence
  have ranked := h.ranked
  have indexed := h.wellFormed.indexed
  refine ⟨⟨_, ranked⟩, fun fuel id memo => ?_, fun check limit fuel id memo => ?_⟩
  · exact Graph.countWatched_mirrors indexed ranked fuel (by simp) memo
  · exact congrArg ExceptT.run
      (Derivation.enumerateWatched_mirrors indexed ranked check limit fuel (by simp) memo)

end PackedForest
