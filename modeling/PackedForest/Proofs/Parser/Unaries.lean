import PackedForest.Proofs.Parser.Edges

/-!
# The unary edges of a forest

On every span of a sentence the worklist of unary rules runs to its end, and whenever it comes to
a rule, the tail of the rule has a node by then.

In the finished forest the unary edges on a span are as many as they can be without a cycle. A rule
whose tail has a node there gives its head a node too (`Filled.head_isSome`), and gives an edge
between the two, unless the unary edges already lead from the tail down to the head
(`Filled.unaryEdges_perm`).
-/

namespace PackedForest

open Reachability (Leads reaches reaches_eq_true_iff)
open Relation (ReflTransGen TransGen)

instance (links : List (NodeId × NodeId)) (a b : NodeId) : Decidable (Leads links a b) :=
  decidable_of_iff _ reaches_eq_true_iff

/-- Whether an edge has its head on a span and its only tail there, too. -/
def Graph.unaryOn (g : Graph) (span : Span) (e : EdgeRecord) : Bool :=
  g.sameSpan e.head e.tails && g.spanOf? e.head == some span

/-- The unary edges on a span. -/
def Graph.unaryEdges (g : Graph) (span : Span) : List Edge :=
  g.edges.toList.filter fun e => g.unaryOn span e.unnumbered

/-- The unary edges on a span as links from the head to the tail. -/
def Graph.unaryLinks (g : Graph) (span : Span) : List (NodeId × NodeId) :=
  (g.unaryEdges span).flatMap fun e => e.tails.map (e.head, ·)

/-- The edge that a unary rule calls for on a span: there is none if the rule lacks a node, or if
its tail leads to its head already. -/
def Forest.unaryEdge? (f : Forest) (span : Span) (g : Grammar) (r : Rule) : Option EdgeRecord :=
  (unaryUse? f.chart span g r).bind fun u =>
    if Leads (f.graph.unaryLinks span) u.tail u.head then none
    else some (u.application.edge u.head)

namespace UnaryProgress

/-- Once no tuple is left, more fuel changes nothing. -/
theorem run_of_exhausted {span : Span} {grammars : List Grammar} {start : SpanProgress} {k : Nat}
    (done : (rounds span grammars start k).span.fresh[k]? = none) {fuel : Nat} (more : k ≤ fuel) :
    run span grammars fuel 0 ⟨start, [], []⟩ = rounds span grammars start k := by
  induction more with
  | refl => rfl
  | @step fuel more ih =>
      have beyond : (rounds span grammars start k).span.fresh[fuel]? = none :=
        List.getElem?_eq_none (Nat.le_trans (List.getElem?_eq_none_iff.1 done) more)
      rw [run_succ, Nat.zero_add, ih, beyond]

end UnaryProgress

namespace Parser

variable (p : Parser) (sentence : List WordId)

/-- The state in which the unary rules of a span begin, with the spans before it filled. -/
def beforeUnaries (before : List Span) (span : Span) : SpanProgress :=
  p.matched sentence
    (before.foldl (p.fillSpan sentence) ⟨{ Graph.empty with words := sentence }, .empty⟩) span

/-- The worklist of unary rules on a span after some rounds, each of which takes up one tuple. -/
def worklist (before : List Span) (span : Span) (k : Nat) : UnaryProgress :=
  UnaryProgress.rounds span p.grammars (p.beforeUnaries sentence before span) k

variable {sentence} {before after : List Span} {span : Span}

section Start

variable (split : Span.upTo sentence.length = before ++ span :: after)

include split

/-- A span is empty until it is filled. -/
theorem filled_before : ∃ fills : List Fill,
    Forest.Grows ⟨{ Graph.empty with words := sentence }, .empty⟩ (fills.flatMap Fill.placed)
      (before.foldl (p.fillSpan sentence) ⟨{ Graph.empty with words := sentence }, .empty⟩) ∧
    ∀ labels, (before.foldl (p.fillSpan sentence)
      ⟨{ Graph.empty with words := sentence }, .empty⟩).chart.find? span labels = none := by
  have order := Span.pairwise_upTo sentence.length
  rw [split, List.pairwise_append] at order
  have known : ∀ s ∈ before, s ∈ Span.upTo sentence.length := fun s member => by
    rw [split]
    exact List.mem_append_left _ member
  obtain ⟨fills, spans, grows, -⟩ := p.foldl_fillSpan_filled sentence (.empty sentence) known
    (fun _ _ _ => by simp [Chart.find?]) order.1
  refine ⟨fills, grows, fun labels => (grows.find?_eq ?_ labels).trans (by simp [Chart.find?])⟩
  rintro y placed rfl
  obtain ⟨x, member, placed⟩ := List.mem_flatMap.1 placed
  rw [x.span_of_placed placed] at order
  exact order.2.2 x.span (spans ▸ List.mem_map_of_mem member) x.span List.mem_cons_self (.refl _)

theorem beforeUnaries_wellFormed : (p.beforeUnaries sentence before span).forest.WellFormed ∧
    (p.beforeUnaries sentence before span).Tracks span := by
  have known : span ∈ Span.upTo sentence.length := by
    rw [split]
    exact List.mem_append_right _ List.mem_cons_self
  obtain ⟨fills, grows, new⟩ := p.filled_before split
  exact ⟨(p.matched_grows sentence grows.wellFormed known).wellFormed,
    p.matched_tracks sentence grows.wellFormed known new⟩

end Start

end Parser

namespace Parser.Filled

variable {p : Parser} {sentence : List WordId} {fills : List Fill}

/-- Among the fills there is one for each span only. -/
theorem flatMap_span (h : p.Filled sentence fills) {x : Fill} (member : x ∈ fills) {β : Type}
    (f : Fill → List β) :
    (fills.flatMap fun y => if y.span = x.span then f y else []) = f x := by
  have order := Span.pairwise_upTo sentence.length
  rw [← h.spans, List.pairwise_map] at order
  obtain ⟨before, after, rfl⟩ := List.append_of_mem member
  obtain ⟨-, later, earlier⟩ := List.pairwise_append.1 order
  have others : ∀ y, y ∈ before ∨ y ∈ after → ¬ y.span = x.span := by
    rintro y (first | second) same
    · exact earlier y first x List.mem_cons_self (same ▸ .refl _)
    · exact (List.pairwise_cons.1 later).1 y second (same ▸ .refl _)
  have none_before : (before.flatMap fun y => if y.span = x.span then f y else []) = [] :=
    List.flatMap_eq_nil_iff.2 fun y first => if_neg (others y (.inl first))
  have none_after : (after.flatMap fun y => if y.span = x.span then f y else []) = [] :=
    List.flatMap_eq_nil_iff.2 fun y second => if_neg (others y (.inr second))
  rw [List.flatMap_append, List.flatMap_cons, none_before, none_after, if_pos rfl]
  exact List.append_nil _

/-- Of the edges of a span those of unary rules are kept, and of other spans none. -/
theorem filter_unaryOn (h : p.Filled sentence fills) {y : Fill} (member : y ∈ fills)
    (span : Span) :
    (y.found.map (·.edgeIn? (p.parse sentence).chart y.span)).filter
          (·.any ((p.parse sentence).graph.unaryOn span)) ++
        (y.uses.map fun u => some (u.application.edge u.head)).filter
          (·.any ((p.parse sentence).graph.unaryOn span)) =
      if y.span = span then y.uses.map fun u => some (u.application.edge u.head) else [] := by
  have found : (y.found.map (·.edgeIn? (p.parse sentence).chart y.span)).filter
      (·.any ((p.parse sentence).graph.unaryOn span)) = [] := by
    rw [List.filter_eq_nil_iff]
    intro o listed
    obtain ⟨a, walked, rfl⟩ := List.mem_map.1 listed
    obtain ⟨head, -, edge, narrow⟩ := h.edge_of_found member walked
    simp [edge, Graph.unaryOn, Application.edge, narrow]
  rw [found, List.nil_append]
  split
  · next here =>
      rw [List.filter_eq_self]
      intro o listed
      obtain ⟨u, use, rfl⟩ := List.mem_map.1 listed
      obtain ⟨-, head_span, stays⟩ := h.edge_of_use member use
      simp [Graph.unaryOn, Application.edge, stays, head_span, here]
  · next elsewhere =>
      rw [List.filter_eq_nil_iff]
      intro o listed
      obtain ⟨u, use, rfl⟩ := List.mem_map.1 listed
      obtain ⟨-, head_span, -⟩ := h.edge_of_use member use
      simp [Graph.unaryOn, Application.edge, head_span, elsewhere]

/-- The unary edges on a span are those of the unary rules used there. -/
theorem unaryEdges (h : p.Filled sentence fills) {x : Fill} (member : x ∈ fills) :
    ((p.parse sentence).graph.unaryEdges x.span).map Edge.unnumbered =
      x.uses.map fun u => u.application.edge u.head := by
  have kept := h.edges_filter ((p.parse sentence).graph.unaryOn x.span)
  rw [List.flatMap_congr fun y listed => h.filter_unaryOn listed x.span,
    h.flatMap_span member] at kept
  have unwrapped := congrArg (List.filterMap id) kept
  simp only [List.filterMap_map, Function.comp_def, id, List.filterMap_eq_map'] at unwrapped
  exact unwrapped

theorem unaryLinks (h : p.Filled sentence fills) {x : Fill} (member : x ∈ fills) :
    (p.parse sentence).graph.unaryLinks x.span = x.uses.map UnaryUse.link := by
  have edges := congrArg (List.flatMap fun r : EdgeRecord => r.tails.map (r.head, ·))
    (h.unaryEdges member)
  rw [List.flatMap_map, List.flatMap_map] at edges
  rw [Graph.unaryLinks, List.map_eq_flatMap]
  exact edges

/-- The unary edges on a span are those that the rules call for, no more and no fewer. -/
theorem unaryEdges_perm (h : p.Filled sentence fills) {x : Fill} (member : x ∈ fills) :
    (((p.parse sentence).graph.unaryEdges x.span).map Edge.unnumbered).Perm
      (p.grammars.flatMap fun g =>
        g.unaries.filterMap ((p.parse sentence).unaryEdge? x.span g)) := by
  rw [h.unaryEdges member]
  refine ((h.sound x member).uses.map _).trans (.of_eq ?_)
  rw [List.map_filterMap, List.filterMap_flatMap]
  refine List.flatMap_congr fun g _ => ?_
  rw [List.filterMap_map]
  refine List.filterMap_congr fun r _ => ?_
  rw [Function.comp_apply, Forest.unaryEdge?, h.unaryLinks member]
  cases unaryUse? (p.parse sentence).chart x.span g r with
  | none => rfl
  | some u =>
      rw [Option.bind_some, Option.filter_some]
      by_cases cycle : Leads (x.uses.map UnaryUse.link) u.tail u.head
      · simp [cycle, reaches_eq_true_iff.2 cycle]
      · simp [cycle, Bool.eq_false_iff.2 (mt reaches_eq_true_iff.1 cycle)]

/-- A rule whose tail is on the span has its head there, too. -/
theorem head_isSome (h : p.Filled sentence fills) {x : Fill} (member : x ∈ fills) {g : Grammar}
    (registered : g ∈ p.grammars) {r : Rule} (stored : r ∈ g.unaries) {labels : Labels}
    (tailed : UnaryRules.tail? r = some labels)
    (tail : ((p.parse sentence).chart.find? x.span labels).isSome) :
    ((p.parse sentence).chart.find? x.span r.head).isSome := by
  have sound := h.sound x member
  obtain ⟨a, found, path⟩ := (sound.isSome_iff labels).1 tail
  exact (sound.isSome_iff r.head).2 ⟨a, found, path.tail ⟨g, registered, r, stored, tailed, rfl⟩⟩

/-- Down the unary edges of a span, unary rules lead back up between the tuples. -/
theorem rewrites_of_leads (h : p.Filled sentence fills) {x : Fill} (member : x ∈ fills)
    {a b : NodeId} (path : Leads (x.uses.map UnaryUse.link) a b) {above below : Labels}
    (above_found : (p.parse sentence).chart.find? x.span above = some a)
    (below_found : (p.parse sentence).chart.find? x.span below = some b) :
    ReflTransGen (Rewrites p.grammars) below above := by
  have wf := h.wellFormed
  induction path using ReflTransGen.head_induction_on generalizing above with
  | refl =>
      rw [(wf.key_unique above_found below_found).2]
  | @head a c link _ ih =>
      obtain ⟨u, use, same⟩ := List.mem_map.1 link
      cases same
      have listed := (h.sound x member).uses.subset use
      obtain ⟨⟨g, r⟩, registered, made⟩ := List.mem_filterMap.1 listed
      obtain ⟨g', known, stored⟩ := List.mem_flatMap.1 registered
      obtain ⟨r', stored, same⟩ := List.mem_map.1 stored
      cases same
      obtain ⟨called, -⟩ := Option.filter_eq_some_iff.1 made
      obtain ⟨-, -, ⟨labels, tailed, tail_found⟩, head_found⟩ := unaryUse?_eq_some_iff.1 called
      rw [← (wf.key_unique head_found above_found).2]
      exact (ih tail_found).tail ⟨g, known, r, stored, tailed, rfl⟩

/-- Without a cycle of unary rules, each of them is used on a span that has its tail. -/
theorem uses_perm (h : p.Filled sentence fills) {x : Fill} (member : x ∈ fills)
    (noncyclic : ∀ labels, ¬ TransGen (Rewrites p.grammars) labels labels) :
    x.uses.Perm (p.grammars.flatMap fun g =>
      g.unaries.filterMap (unaryUse? (p.parse sentence).chart x.span g)) := by
  refine (h.sound x member).uses.trans (.of_eq ?_)
  rw [List.filterMap_flatMap]
  refine List.flatMap_congr fun g registered => ?_
  rw [List.filterMap_map]
  refine List.filterMap_congr fun r stored => ?_
  rw [Function.comp_apply]
  cases use : unaryUse? (p.parse sentence).chart x.span g r with
  | none => rfl
  | some u =>
      obtain ⟨-, -, ⟨labels, tailed, tail_found⟩, head_found⟩ := unaryUse?_eq_some_iff.1 use
      rw [Option.filter_some, if_pos]
      rw [Bool.not_eq_true', ← Bool.not_eq_true, reaches_eq_true_iff]
      intro path
      exact noncyclic labels (TransGen.head' ⟨g, registered, r, stored, tailed, rfl⟩
        (h.rewrites_of_leads member path tail_found head_found))

end Parser.Filled

open UnaryProgress in
/-- On each span of a sentence the worklist of unary rules ends, whatever fuel it is given beyond
some rounds; whenever it comes to a rule, that rule is there and its tail has a node. In the
finished forest every rule with a tail on the span has its head there, and adds one edge
between them, unless the unary edges of the span lead from the tail to the head. -/
theorem Parser.unaries_maximal (p : Parser) (sentence : List WordId) {before after : List Span}
    {span : Span} (split : Span.upTo sentence.length = before ++ span :: after) :
    (∃ k, (p.worklist sentence before span k).span.fresh[k]? = none ∧
      (∀ fuel ≥ k, run span p.grammars fuel 0 ⟨p.beforeUnaries sentence before span, [], []⟩ =
        p.worklist sentence before span k) ∧
      (p.beforeUnaries sentence before span).applyUnaries span p.grammars =
        (p.worklist sentence before span k).span) ∧
    (∀ k labels, (p.worklist sentence before span k).span.fresh[k]? = some labels →
      ∀ done a rest, attempts p.grammars labels = done ++ a :: rest → ∃ rule tail,
        a.grammar.unaries[a.step.rule]? = some rule ∧
        (done.foldl (attempt span) (p.worklist sentence before span k)).span.forest.chart.find?
          span a.step.tail = some tail) ∧
    (∀ g ∈ p.grammars, ∀ r ∈ g.unaries, ∀ labels, UnaryRules.tail? r = some labels →
      ((p.parse sentence).chart.find? span labels).isSome →
      ((p.parse sentence).chart.find? span r.head).isSome) ∧
    (((p.parse sentence).graph.unaryEdges span).map Edge.unnumbered).Perm
      (p.grammars.flatMap fun g => g.unaries.filterMap ((p.parse sentence).unaryEdge? span g)) := by
  obtain ⟨wf, tracks⟩ := p.beforeUnaries_wellFormed split
  obtain ⟨fills, filled⟩ := p.parse_filled sentence
  have known : span ∈ Span.upTo sentence.length := by
    rw [split]
    exact List.mem_append_right _ List.mem_cons_self
  obtain ⟨x, member, rfl⟩ := filled.exists_fill known
  refine ⟨?_, ?_, ?_, filled.unaryEdges_perm member⟩
  · obtain ⟨k, final, done, -⟩ := applyUnaries_eq wf tracks p.grammars
    exact ⟨k, done, fun fuel more => run_of_exhausted done more, final.symm⟩
  · intro k labels here done a rest made
    obtain ⟨⟨fired, h⟩, -⟩ := expansion_rounds wf tracks p.grammars k
    have supplied := (h.round (List.mem_of_getElem? here)).supplied
    rw [made] at supplied
    exact supplied.at
  · intro g registered r stored labels tailed tail
    exact filled.head_isSome member registered stored tailed tail

/-- On the span of two nouns the unary rule is used once, though it leads back to a noun. -/
theorem Parser.unaries_maximal_nouns :
    Span.upTo 2 = [⟨0, 1⟩, ⟨1, 2⟩] ++ ⟨0, 2⟩ :: [] ∧
    ((nounParser.grammars.flatMap fun g =>
      g.unaries.filterMap ((nounParser.parse [1, 1]).unaryEdge? ⟨0, 2⟩ g)).length = 1) :=
  ⟨by decide, (unaries_maximal nounParser [1, 1]
    (show Span.upTo 2 = [⟨0, 1⟩, ⟨1, 2⟩] ++ ⟨0, 2⟩ :: [] by decide)).2.2.2.length_eq.symm.trans
      (by decide +kernel)⟩

end PackedForest
