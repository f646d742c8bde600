import PackedForest.Proofs.Forest.Entries
import PackedForest.Proofs.Parser.Packing

/-!
# The chart of a finished forest

Nodes come into a forest in three ways: as heads of matches, of words that are passed through, and
of unary rules. All three look the head up in the one chart of the sentence before they add it, and
then add an edge to it. So in the finished forest the entries of the chart and the nodes of the
graph are paired one to one, and no node is without an edge.

`Forest.Charted` collects what the chart says about the graph, down to the search by symbol and
span, which cannot tell apart label tuples with the same source label.
-/

namespace PackedForest

/-- The entries of the chart are the nodes of the graph, each under one key. The node of a key
stands on its span, within a sentence of the given size, and has edges; their tails stand under
keys on spans within its own. Searched by symbol and span, the graph gives the first node under a
key with that source label. -/
structure Forest.Charted (f : Forest) (size : Nat) : Prop where
  size_eq : f.chart.size = f.graph.nodes.size
  keys_apart : (f.chart.entries.map fun e => (e.1, e.2.1)).Nodup
  numbers : (f.chart.entries.map (·.2.2)).Perm (List.range f.graph.nodes.size)
  find?_iff : ∀ {span : Span} {labels : Labels} {id : NodeId},
    f.chart.find? span labels = some id ↔ (span, labels, id) ∈ f.chart.entries
  node : ∀ {span : Span} {labels : Labels} {id : NodeId}, (span, labels, id) ∈ f.chart.entries →
    span.start < span.stop ∧ span.stop ≤ size ∧
      ∃ node, f.graph.nodes[id]? = some node ∧ node.span = span ∧ node.sym = labels.source ∧
        node.edges ≠ [] ∧ ∀ j ∈ node.edges, ∃ e, f.graph.edges[j]? = some e ∧ e.head = id
  edge : ∀ e ∈ f.graph.edges.toList, ∃ span labels, (span, labels, e.head) ∈ f.chart.entries ∧
    ∀ t ∈ e.tails, ∃ piece labels, piece.Within span ∧ (piece, labels, t) ∈ f.chart.entries
  search : ∀ {sym : WordId} {span : Span} {id : NodeId}, f.graph.find? sym span = some id ↔
    (∃ labels, labels.source = sym ∧ (span, labels, id) ∈ f.chart.entries) ∧
      ∀ labels other, labels.source = sym → (span, labels, other) ∈ f.chart.entries → id ≤ other
  search_none : ∀ {sym : WordId} {span : Span}, f.graph.find? sym span = none ↔
    ∀ labels id, labels.source = sym → (span, labels, id) ∉ f.chart.entries

/-- What a node lists are edges of the graph under this head. -/
theorem Graph.Indexed.edge_of_listed {g : Graph} (h : g.Indexed) {id : NodeId} {node : Node}
    (here : g.nodes[id]? = some node) {j : EdgeId} (listed : j ∈ node.edges) :
    ∃ e, g.edges[j]? = some e ∧ e.head = id := by
  rw [h.node_edges here] at listed
  have built := (List.mem_filter.1 listed).2
  rw [Option.any_eq_true] at built
  obtain ⟨e, edge, head⟩ := built
  exact ⟨e, edge, of_decide_eq_true head⟩

namespace Parser.Filled

variable {p : Parser} {sentence : List WordId} {fills : List Fill}

theorem distinct (h : p.Filled sentence fills) : (p.parse sentence).chart.Distinct :=
  h.grows.distinct .empty

/-- The tails of an edge stand on spans within that of its head. -/
theorem edge_within (h : p.Filled sentence fills) {e : Edge}
    (stored : e ∈ (p.parse sentence).graph.edges.toList) : ∃ span labels,
      (p.parse sentence).chart.find? span labels = some e.head ∧
      ∀ t ∈ e.tails, ∃ piece labels, piece.Within span ∧
        (p.parse sentence).chart.find? piece labels = some t := by
  obtain ⟨x, member, a, made, found, edge⟩ := h.edge_made stored
  have tails_eq : e.tails = a.tails := congrArg EdgeRecord.tails edge
  refine ⟨x.span, a.rule.head, found, ?_⟩
  rw [tails_eq]
  intro t filled
  rcases made with walked | ⟨u, used, rfl⟩
  · obtain ⟨piece, labels, inside, -, found⟩ := tails_found (h.span_mem member) walked filled
    exact ⟨piece, labels, inside, found⟩
  · obtain ⟨⟨labels, found⟩, -⟩ := (h.sound x member).between u used
    exact ⟨x.span, labels, .refl _, List.mem_singleton.1 filled ▸ found⟩

end Parser.Filled

/-- In the forest of a sentence the entries of the chart and the nodes of the graph are paired one
to one. -/
theorem Parser.parse_charted (p : Parser) (sentence : List WordId) :
    (p.parse sentence).Charted sentence.length := by
  obtain ⟨fills, filled⟩ := p.parse_filled sentence
  have wf := filled.wellFormed
  have entry : ∀ {span labels id}, (p.parse sentence).chart.find? span labels = some id ↔
      (span, labels, id) ∈ (p.parse sentence).chart.entries :=
    (Chart.mem_entries filled.distinct).symm
  constructor
  case size_eq => exact wf.size_eq filled.distinct
  case keys_apart => exact Chart.nodup_keys filled.distinct
  case numbers => exact wf.numbers_perm filled.distinct
  case find?_iff => exact entry
  case node =>
    intro span labels id listed
    have found := entry.2 listed
    obtain ⟨nonempty, inside⟩ := Span.mem_upTo.1 (filled.span_of_found (by rw [found]; rfl))
    obtain ⟨node, here, -, span_eq, sym⟩ := wf.node_of_find? found
    have some_edge := mt (wf.indexed.edgesOf_eq_nil_iff here).2 (filled.edgesOf_ne_nil found)
    exact ⟨nonempty, inside, node, here, span_eq, sym, some_edge,
      fun j listed => wf.indexed.edge_of_listed here listed⟩
  case edge =>
    simp only [← entry]
    exact fun e stored => filled.edge_within stored
  case search =>
    simp only [← entry]
    exact wf.graph_find?_eq_some_iff
  case search_none =>
    intro sym span
    rw [wf.graph_find?_eq_none_iff]
    simp only [← entry, Option.eq_none_iff_forall_ne_some, ne_eq]
    exact forall_congr' fun labels => forall_comm

/-- Two nouns and an unknown word have five nodes: one for each word, and two for the pair. -/
example : (nounParser.parse [1, 1, 9]).graph.nodes.size = 5 := by decide +kernel

end PackedForest
