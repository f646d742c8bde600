import PackedForest.Proofs.Parser.Match
import PackedForest.Proofs.Unary.Rounds

/-!
# Filling the spans of a sentence

Spans are filled one after the other, and what is applied on a span depends on narrower spans
only. So the whole run can be described by its end: for every span there is a `Fill`, which
lists what was applied there, and which is `Sound` for the chart of the finished forest.
`Parser.parse_filled` gives the fills of a sentence and says that the forest consists
of nothing else.
-/

namespace PackedForest

open Reachability (Acyclic reaches)
open Relation (ReflTransGen)

/-- The applications over a span, unary rules apart, as a chart allows them. -/
def Parser.found (p : Parser) (sentence : List WordId) (chart : Chart) (span : Span) :
    List Application :=
  p.applications chart span.start ((sentence.drop span.start).take (span.stop - span.start))

/-- What is applied on a span: first what the walks find, then unary rules. -/
structure Fill where
  span : Span
  found : List Application
  uses : List UnaryUse

/-- The applications in order, each with the span. -/
def Fill.placed (x : Fill) : List (Span × Application) :=
  x.found.map (x.span, ·) ++ x.uses.map fun u => (x.span, u.application)

theorem Fill.span_of_placed (x : Fill) {y : Span × Application} (member : y ∈ x.placed) :
    y.1 = x.span := by
  rcases List.mem_append.1 member with walk | unary
  · obtain ⟨_, _, rfl⟩ := List.mem_map.1 walk
    rfl
  · obtain ⟨_, _, rfl⟩ := List.mem_map.1 unary
    rfl

/-- Other spans keep the nodes that they had. -/
theorem Fill.find?_eq (x : Fill) {f f' : Forest} (grows : f.Grows x.placed f') {span : Span}
    (other : span ≠ x.span) (labels : Labels) :
    f'.chart.find? span labels = f.chart.find? span labels :=
  grows.find?_eq (fun _ placed => x.span_of_placed placed ▸ other.symm) labels

/-- A fill fits a chart: the walks find this much in it, and the unary rules are used between
nodes of the span, as often as they may be without a cycle. -/
structure Fill.Sound (p : Parser) (sentence : List WordId) (chart : Chart) (x : Fill) :
    Prop where
  found : x.found = p.found sentence chart x.span
  isSome_iff : ∀ labels, (chart.find? x.span labels).isSome ↔
    ∃ a ∈ x.found, ReflTransGen (Rewrites p.grammars) a.rule.head labels
  acyclic : Acyclic (x.uses.map UnaryUse.link)
  between : ∀ u ∈ x.uses, (∃ labels, chart.find? x.span labels = some u.tail) ∧
    chart.find? x.span u.rule.head = some u.head
  uses : x.uses.Perm ((p.grammars.flatMap fun g => g.unaries.map (g, ·)).filterMap fun y =>
    (unaryUse? chart x.span y.1 y.2).filter fun u =>
      !reaches (x.uses.map UnaryUse.link) u.tail u.head)

section Found

variable {p : Parser} {sentence : List WordId} {span : Span} {chart chart' : Chart}
variable (known : span ∈ Span.upTo sentence.length)

include known

theorem length_words :
    ((sentence.drop span.start).take (span.stop - span.start)).length =
      span.stop - span.start := by
  obtain ⟨-, bound⟩ := Span.mem_upTo.1 known
  rw [List.length_take, List.length_drop]
  omega

theorem start_add_length_words : span.start +
    ((sentence.drop span.start).take (span.stop - span.start)).length = span.stop := by
  obtain ⟨nonempty, -⟩ := Span.mem_upTo.1 known
  rw [length_words known]
  omega

/-- The tails of an application are nodes of narrower spans within its own. -/
theorem Parser.tails_found {a : Application} (member : a ∈ p.found sentence chart span)
    {tail : NodeId} (filled : tail ∈ a.tails) :
    ∃ piece labels, piece.Within span ∧ piece ≠ span ∧ chart.find? piece labels = some tail := by
  unfold found applications at member
  split at member
  · split at member
    · cases member
    · cases List.mem_singleton.1 member
      cases filled
  · obtain ⟨g, _, member⟩ := List.mem_flatMap.1 member
    obtain ⟨m, walked, rfl⟩ := List.mem_map.1 member
    rw [Grammar.matching] at walked
    split at walked
    · exact Match.tails_through (Nat.le_refl _) (start_add_length_words known) walked filled
    · cases walked

theorem Parser.found_congr (agree : Chart.AgreeBelow span chart chart') :
    p.found sentence chart span = p.found sentence chart' span := by
  have same : p.matching chart span.start
      ((sentence.drop span.start).take (span.stop - span.start)) =
      p.matching chart' span.start
        ((sentence.drop span.start).take (span.stop - span.start)) := by
    refine List.flatMap_congr fun g _ => ?_
    rw [Grammar.matching, Grammar.matching,
      Match.through_congr agree (Nat.le_refl _) (start_add_length_words known)]
  unfold found applications
  rw [same]

end Found

theorem unaryUse?_congr {chart chart' : Chart} {span : Span}
    (same : ∀ labels, chart.find? span labels = chart'.find? span labels) (g : Grammar)
    (r : Rule) : unaryUse? chart span g r = unaryUse? chart' span g r := by
  rw [unaryUse?, unaryUse?, funext same]

/-- A fill only depends on the nodes of spans within its own. -/
theorem Fill.Sound.congr {p : Parser} {sentence : List WordId} {chart chart' : Chart} {x : Fill}
    (h : x.Sound p sentence chart) (known : x.span ∈ Span.upTo sentence.length)
    (same : ∀ piece : Span, piece.Within x.span →
      ∀ labels, chart'.find? piece labels = chart.find? piece labels) :
    x.Sound p sentence chart' where
  found := h.found.trans
    (Parser.found_congr known fun piece inside _ labels => (same piece inside labels).symm)
  isSome_iff labels := by
    rw [same _ (.refl _)]
    exact h.isSome_iff labels
  acyclic := h.acyclic
  between u member := by
    simp only [same _ (.refl _)]
    exact h.between u member
  uses := by
    simp only [unaryUse?_congr (same _ ⟨Nat.le_refl _, Nat.le_refl _⟩)]
    exact h.uses

namespace Parser

variable (p : Parser) (sentence : List WordId)

/-- The state in which the unary rules of a span begin. -/
def matched (f : Forest) (span : Span) : SpanProgress :=
  (p.found sentence f.chart span).foldl (SpanProgress.apply span) ⟨f, []⟩

theorem fillSpan_eq (f : Forest) (span : Span) : p.fillSpan sentence f span =
    ((p.matched sentence f span).applyUnaries span p.grammars).forest := rfl

variable {f : Forest} {span : Span}

theorem grounded_found (known : span ∈ Span.upTo sentence.length) {chart : Chart} :
    ∀ a ∈ p.found sentence chart span, a.Grounded chart := by
  intro a member tail filled
  obtain ⟨piece, labels, -, -, found⟩ := tails_found known member filled
  exact ⟨piece, labels, found⟩

theorem matched_grows (wf : f.WellFormed) (known : span ∈ Span.upTo sentence.length) :
    f.Grows ((p.found sentence f.chart span).map (span, ·)) (p.matched sentence f span).forest :=
  SpanProgress.foldl_apply_grows (p := ⟨f, []⟩) span wf (p.grounded_found sentence known)

theorem matched_tracks (wf : f.WellFormed) (known : span ∈ Span.upTo sentence.length)
    (new : ∀ labels, f.chart.find? span labels = none) :
    (p.matched sentence f span).Tracks span :=
  SpanProgress.foldl_apply_tracks (p := ⟨f, []⟩) wf (fun labels => by simp [new])
    (p.grounded_found sentence known)

/-- Filling a span that has no nodes yet. -/
theorem fillSpan_filled (wf : f.WellFormed) (known : span ∈ Span.upTo sentence.length)
    (new : ∀ labels, f.chart.find? span labels = none) :
    ∃ x : Fill, x.span = span ∧ f.Grows x.placed (p.fillSpan sentence f span) ∧
      x.Sound p sentence (p.fillSpan sentence f span).chart := by
  have first := p.matched_grows sentence wf known
  have tracks := p.matched_tracks sentence wf known new
  obtain ⟨uses, h⟩ := SpanProgress.applyUnaries_expanded first.wellFormed tracks p.grammars
  have grows := first.trans h.grows
  refine ⟨⟨span, p.found sentence f.chart span, uses⟩, rfl, grows, ?_, ?_, h.acyclic, h.between,
    h.perm⟩
  · refine found_congr known fun piece inside other labels => (grows.find?_eq ?_ labels).symm
    intro y member
    rw [Fill.span_of_placed ⟨span, p.found sentence f.chart span, uses⟩ member]
    exact Ne.symm other
  · intro labels
    rw [fillSpan_eq, h.isSome_iff]
    have heads : ∀ l, l ∈ (p.matched sentence f span).fresh ↔
        ∃ a ∈ p.found sentence f.chart span, a.rule.head = l := by
      intro l
      rw [tracks l, first.isSome_iff, new]
      simp
    constructor
    · rintro ⟨l, member, path⟩
      obtain ⟨a, found, rfl⟩ := (heads l).1 member
      exact ⟨a, found, path⟩
    · rintro ⟨a, found, path⟩
      exact ⟨_, (heads _).2 ⟨a, found, rfl⟩, path⟩

/-- Filling several spans that have no nodes yet, none of them within one that comes before. -/
theorem foldl_fillSpan_filled (wf : f.WellFormed) {spans : List Span}
    (known : ∀ s ∈ spans, s ∈ Span.upTo sentence.length)
    (new : ∀ s ∈ spans, ∀ labels, f.chart.find? s labels = none)
    (order : spans.Pairwise fun s t => ¬ t.Within s) :
    ∃ fills : List Fill, fills.map (·.span) = spans ∧
      f.Grows (fills.flatMap Fill.placed) (spans.foldl (p.fillSpan sentence) f) ∧
      ∀ x ∈ fills, x.Sound p sentence (spans.foldl (p.fillSpan sentence) f).chart := by
  induction spans generalizing f with
  | nil => exact ⟨[], rfl, .refl wf, by simp⟩
  | cons span spans ih =>
      obtain ⟨apart, order_later⟩ := List.pairwise_cons.1 order
      obtain ⟨known_here, known_later⟩ := List.forall_mem_cons.1 known
      obtain ⟨new_here, new_later⟩ := List.forall_mem_cons.1 new
      obtain ⟨x, rfl, grows, sound⟩ := p.fillSpan_filled sentence wf known_here new_here
      have still_new : ∀ s ∈ spans, ∀ labels,
          (p.fillSpan sentence f x.span).chart.find? s labels = none := by
        intro s member labels
        rw [x.find?_eq grows (fun same => apart s member (same ▸ .refl _)), new_later s member]
      obtain ⟨fills, spans_eq, grows_later, sound_later⟩ :=
        ih grows.wellFormed known_later still_new order_later
      refine ⟨x :: fills, congrArg (x.span :: ·) spans_eq, grows.trans grows_later, ?_⟩
      refine List.forall_mem_cons.2 ⟨?_, sound_later⟩
      refine sound.congr known_here fun piece inside labels => grows_later.find?_eq ?_ labels
      rintro y placed rfl
      obtain ⟨z, member, placed_there⟩ := List.mem_flatMap.1 placed
      rw [z.span_of_placed placed_there] at inside
      exact apart z.span (spans_eq ▸ List.mem_map_of_mem member) inside

/-- The fills of all spans make up the forest of the sentence. -/
structure Filled (fills : List Fill) : Prop where
  spans : fills.map (·.span) = Span.upTo sentence.length
  grows : Forest.Grows ⟨{ Graph.empty with words := sentence }, .empty⟩
    (fills.flatMap Fill.placed) (p.parse sentence)
  sound : ∀ x ∈ fills, x.Sound p sentence (p.parse sentence).chart

theorem parse_filled : ∃ fills, p.Filled sentence fills := by
  obtain ⟨fills, spans, grows, sound⟩ := p.foldl_fillSpan_filled sentence (.empty sentence)
    (fun _ member => member) (fun _ _ _ => by simp [Chart.find?]) (Span.pairwise_upTo _)
  exact ⟨fills, spans, grows, sound⟩

namespace Filled

variable {p sentence} {fills : List Fill}

theorem wellFormed (h : p.Filled sentence fills) : (p.parse sentence).WellFormed :=
  h.grows.wellFormed

theorem words (h : p.Filled sentence fills) : (p.parse sentence).graph.words = sentence :=
  h.grows.words

theorem span_mem (h : p.Filled sentence fills) {x : Fill} (member : x ∈ fills) :
    x.span ∈ Span.upTo sentence.length := by
  rw [← h.spans]
  exact List.mem_map_of_mem member

/-- The fill of a span. -/
theorem exists_fill (h : p.Filled sentence fills) {span : Span}
    (known : span ∈ Span.upTo sentence.length) : ∃ x ∈ fills, x.span = span := by
  rw [← h.spans] at known
  exact List.mem_map.1 known

/-- A node stands on a span of the sentence. -/
theorem span_of_found (h : p.Filled sentence fills) {span : Span} {labels : Labels}
    (found : ((p.parse sentence).chart.find? span labels).isSome) :
    span ∈ Span.upTo sentence.length := by
  rcases h.grows.isSome_iff.1 found with old | ⟨y, placed, rfl, -⟩
  · simp [Chart.find?] at old
  · obtain ⟨x, member, placed⟩ := List.mem_flatMap.1 placed
    rw [x.span_of_placed placed]
    exact h.span_mem member

/-- The edges of the forest are those of the fills, in order. -/
theorem edges (h : p.Filled sentence fills) :
    (p.parse sentence).graph.edges.toList.map (fun e => some e.unnumbered) =
      (fills.flatMap Fill.placed).map fun y => y.2.edgeIn? (p.parse sentence).chart y.1 := by
  rw [h.grows.edges]
  rfl

end Filled

end Parser

end PackedForest
