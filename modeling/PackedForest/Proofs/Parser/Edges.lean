import PackedForest.Proofs.Parser.Loading

/-!
# The edges of a forest

An edge whose only tail stands on the same span as its head comes from a unary rule; the tails of
all other edges stand on narrower spans (`Filled.edge_of_found`, `Filled.edge_of_use`). So the
edges of the two kinds can be told apart in the finished forest.

Unary rules apart, the forest of a parser that was loaded from tables has one edge for each use
of a rule over a cut of a span, judged by the finished chart, and one for each word that is passed
through.
-/

namespace PackedForest

/-- Whether the only tail of an edge stands on the same span as the head. -/
def Graph.sameSpan (g : Graph) (head : NodeId) : List NodeId → Bool
  | [tail] => g.spanOf? tail == g.spanOf? head
  | _ => false

/-- Whether an edge has one tail, on the span of its head. -/
def Graph.isUnary (g : Graph) (e : Edge) : Bool := g.sameSpan e.head e.tails

namespace Parser.Filled

variable {p : Parser} {sentence : List WordId} {fills : List Fill}

/-- The edge of what a walk found has its tails on narrower spans. -/
theorem edge_of_found (h : p.Filled sentence fills) {x : Fill} (member : x ∈ fills)
    {a : Application} (found : a ∈ x.found) : ∃ head,
      (p.parse sentence).chart.find? x.span a.rule.head = some head ∧
      a.edgeIn? (p.parse sentence).chart x.span = some (a.edge head) ∧
      (p.parse sentence).graph.sameSpan head a.tails = false := by
  have placed : (x.span, a) ∈ fills.flatMap Fill.placed :=
    List.mem_flatMap.2 ⟨x, member, List.mem_append_left _ (List.mem_map_of_mem found)⟩
  have present := h.grows.edgeIn?_isSome placed
  rw [Application.edgeIn?, Option.isSome_map] at present
  obtain ⟨head, head_found⟩ := Option.isSome_iff_exists.1 present
  refine ⟨head, head_found, by rw [Application.edgeIn?, head_found]; rfl, ?_⟩
  unfold Graph.sameSpan
  split
  · next tail only =>
      rw [(h.sound x member).found] at found
      have filled : tail ∈ a.tails := by rw [only]; exact List.mem_singleton_self _
      obtain ⟨piece, labels, -, other, tail_found⟩ :=
        tails_found (h.span_mem member) found filled
      rw [h.wellFormed.spanOf?_eq tail_found, h.wellFormed.spanOf?_eq head_found]
      simpa using other
  · rfl

/-- The edge of a unary rule stays on the span. -/
theorem edge_of_use (h : p.Filled sentence fills) {x : Fill} (member : x ∈ fills)
    {u : UnaryUse} (use : u ∈ x.uses) :
    u.application.edgeIn? (p.parse sentence).chart x.span = some (u.application.edge u.head) ∧
      (p.parse sentence).graph.spanOf? u.head = some x.span ∧
      (p.parse sentence).graph.sameSpan u.head u.application.tails = true := by
  obtain ⟨⟨labels, tail_found⟩, head_found⟩ := (h.sound x member).between u use
  have head_span := h.wellFormed.spanOf?_eq head_found
  refine ⟨?_, head_span, ?_⟩
  · rw [Application.edgeIn?, UnaryUse.application, head_found]
    rfl
  · rw [UnaryUse.application, Graph.sameSpan, head_span, h.wellFormed.spanOf?_eq tail_found]
    exact beq_self_eq_true _

/-- Every edge is that of an application that a walk found on its span, or of a unary rule that was
used there. -/
theorem edge_made (h : p.Filled sentence fills) {e : Edge}
    (stored : e ∈ (p.parse sentence).graph.edges.toList) : ∃ x ∈ fills, ∃ a : Application,
      (a ∈ p.found sentence (p.parse sentence).chart x.span ∨
        ∃ u ∈ x.uses, u.application = a) ∧
      (p.parse sentence).chart.find? x.span a.rule.head = some e.head ∧
      e.unnumbered = a.edge e.head := by
  have listed : some e.unnumbered ∈
      (p.parse sentence).graph.edges.toList.map fun e => some e.unnumbered :=
    List.mem_map.2 ⟨e, stored, rfl⟩
  rw [h.edges] at listed
  obtain ⟨⟨span, a⟩, placed, edge⟩ := List.mem_map.1 listed
  obtain ⟨head, found, made⟩ := Option.map_eq_some_iff.1 edge
  obtain rfl : head = e.head := congrArg EdgeRecord.head made
  obtain ⟨x, member, placed⟩ := List.mem_flatMap.1 placed
  rcases List.mem_append.1 placed with walked | unary
  · obtain ⟨b, applied, same⟩ := List.mem_map.1 walked
    cases same
    rw [(h.sound x member).found] at applied
    exact ⟨x, member, a, .inl applied, found, made.symm⟩
  · obtain ⟨u, used, same⟩ := List.mem_map.1 unary
    cases same
    exact ⟨x, member, _, .inr ⟨u, used, rfl⟩, found, made.symm⟩

/-- The edges that are kept by a test on what they were before they took a number. -/
theorem edges_filter (h : p.Filled sentence fills) (keep : EdgeRecord → Bool) :
    ((p.parse sentence).graph.edges.toList.filter (fun e => keep e.unnumbered)).map
        (fun e => some e.unnumbered) =
      fills.flatMap fun x =>
        (x.found.map (·.edgeIn? (p.parse sentence).chart x.span)).filter (·.any keep) ++
          (x.uses.map fun u => some (u.application.edge u.head)).filter (·.any keep) := by
  have kept := List.filter_map (f := fun e : Edge => some e.unnumbered) (p := (·.any keep))
    (l := (p.parse sentence).graph.edges.toList)
  refine kept.symm.trans ?_
  rw [h.edges, List.map_flatMap, List.filter_flatMap]
  refine List.flatMap_congr fun x member => ?_
  have uses : x.uses.map (fun u => u.application.edgeIn? (p.parse sentence).chart x.span) =
      x.uses.map fun u => some (u.application.edge u.head) :=
    List.map_congr_left fun u use => (h.edge_of_use member use).1
  rw [Fill.placed, List.map_append, List.map_map, List.map_map, List.filter_append, ← uses]
  rfl

/-- The edges that are not unary, span by span. -/
theorem edges_of_found (h : p.Filled sentence fills) :
    ((p.parse sentence).graph.edges.toList.filter
        (!(p.parse sentence).graph.isUnary ·)).map (fun e => some e.unnumbered) =
      (Span.upTo sentence.length).flatMap fun span =>
        (p.found sentence (p.parse sentence).chart span).map
          (·.edgeIn? (p.parse sentence).chart span) := by
  refine (h.edges_filter fun r => !(p.parse sentence).graph.sameSpan r.head r.tails).trans ?_
  rw [← h.spans, List.flatMap_map]
  refine List.flatMap_congr fun x member => ?_
  rw [List.filter_eq_self.2, List.filter_eq_nil_iff.2, List.append_nil,
    (h.sound x member).found]
  · intro o listed
    obtain ⟨u, use, rfl⟩ := List.mem_map.1 listed
    have stays := (h.edge_of_use member use).2.2
    simp [Application.edge, stays]
  · intro o listed
    obtain ⟨a, found, rfl⟩ := List.mem_map.1 listed
    obtain ⟨head, -, edge, narrow⟩ := h.edge_of_found member found
    rw [edge]
    simp [Application.edge, narrow]

/-- The edges that are unary, span by span. -/
theorem edges_of_uses (h : p.Filled sentence fills) :
    ((p.parse sentence).graph.edges.toList.filter (p.parse sentence).graph.isUnary).map
        Edge.unnumbered = fills.flatMap fun x => x.uses.map fun u => u.application.edge u.head := by
  have kept := h.edges_filter fun r => (p.parse sentence).graph.sameSpan r.head r.tails
  rw [List.flatMap_congr (g := fun x => x.uses.map fun u => some (u.application.edge u.head))]
    at kept
  · have unwrapped := congrArg (List.filterMap id) kept
    rw [List.filterMap_flatMap] at unwrapped
    simp only [List.filterMap_map, Function.comp_def, id, List.filterMap_eq_map'] at unwrapped
    exact unwrapped
  intro x member
  rw [List.filter_eq_nil_iff.2, List.filter_eq_self.2, List.nil_append]
  · intro o listed
    obtain ⟨u, use, rfl⟩ := List.mem_map.1 listed
    exact (h.edge_of_use member use).2.2
  · intro o listed
    obtain ⟨a, found, rfl⟩ := List.mem_map.1 listed
    obtain ⟨head, -, edge, narrow⟩ := h.edge_of_found member found
    rw [edge]
    simp [Application.edge, narrow]

end Parser.Filled

/-- Unary edges apart, the forest has one edge for each use of a rule over a cut of a span, and
one for each word that is passed through. -/
theorem Parser.LoadedFrom.edges_perm {p : Parser} {tables : List RuleTable}
    (h : p.LoadedFrom tables) (sentence : List WordId) :
    (((p.parse sentence).graph.edges.toList.filter
        (!(p.parse sentence).graph.isUnary ·)).map (fun e => some e.unnumbered)).Perm
      ((Span.upTo sentence.length).flatMap fun span =>
        (ruleApplications tables sentence (p.parse sentence).chart span ++
          p.unknownApplications tables sentence (p.parse sentence).chart span).map
            (·.edgeIn? (p.parse sentence).chart span)) := by
  obtain ⟨fills, filled⟩ := p.parse_filled sentence
  rw [filled.edges_of_found]
  exact List.Perm.flatMap_left _ fun span known =>
    (h.found_perm known (p.parse sentence).chart).map _

/-- Of two nouns each has two edges, and the pair has one. The third word is unknown. -/
theorem Parser.LoadedFrom.edges_perm_nouns : nounParser.LoadedFrom [nounTable] ∧
    ((Span.upTo 3).flatMap fun span =>
      (ruleApplications [nounTable] [1, 1, 9] (nounParser.parse [1, 1, 9]).chart span ++
        nounParser.unknownApplications [nounTable] [1, 1, 9] (nounParser.parse [1, 1, 9]).chart
          span).map (·.edgeIn? (nounParser.parse [1, 1, 9]).chart span)).length = 6 :=
  ⟨nounParser_loadedFrom,
    (edges_perm nounParser_loadedFrom [1, 1, 9]).length_eq.symm.trans (by decide +kernel)⟩

end PackedForest
