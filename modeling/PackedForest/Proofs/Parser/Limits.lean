import PackedForest.Proofs.Parser.Unaries

/-!
# Span limits

The span limit of a grammar is asked for where its rules are matched against a span. The worklist of
unary rules does not ask for it: a unary rule is used on every span that has a node for its tail, be
the span wider than the limit or not.

`Parser.Made` tells how an application over a span came about, and where the limit stands in it.
-/

namespace PackedForest

/-- How the applications over a span come about: by a match of a grammar whose limit allows for the
span, by passing a single word through, or by a unary rule over a node of the span. -/
inductive Parser.Made (p : Parser) (sentence : List WordId) (chart : Chart) (span : Span) :
    Application → Prop
  | matched {g : Grammar} {m : Match} (registered : g ∈ p.grammars)
      (allowed : span.stop - span.start ≤ g.spanLimit)
      (walked : m ∈ g.matching chart span.start
        ((sentence.drop span.start).take (span.stop - span.start))) :
      Made p sentence chart span ⟨m.rule, m.tails, g.keepSourceText⟩
  | passed {word : WordId} (single : span.stop = span.start + 1)
      (here : sentence[span.start]? = some word) :
      Made p sentence chart span ⟨p.unknownRule word, [], p.keepSourceText⟩
  | rewritten {g : Grammar} {r : Rule} {labels : Labels} {tail : NodeId}
      (registered : g ∈ p.grammars) (stored : r ∈ g.unaries)
      (tailed : UnaryRules.tail? r = some labels) (found : chart.find? span labels = some tail) :
      Made p sentence chart span ⟨r, [tail], g.keepSourceText⟩

theorem Parser.made_of_found {p : Parser} {sentence : List WordId} {chart : Chart} {span : Span}
    (known : span ∈ Span.upTo sentence.length) {a : Application}
    (member : a ∈ p.found sentence chart span) : p.Made sentence chart span a := by
  unfold found applications at member
  split at member
  · next word _ single =>
      have wide := length_words known
      rw [single, List.length_singleton] at wide
      have here : sentence[span.start]? = some word := by
        have first := congrArg (·[0]?) single
        simpa [List.getElem?_take, ← wide] using first
      split at member
      · cases member
      · rw [List.mem_singleton.1 member]
        exact .passed (by omega) here
  · obtain ⟨g, registered, listed⟩ := List.mem_flatMap.1 member
    obtain ⟨m, walked, rfl⟩ := List.mem_map.1 listed
    refine .matched registered ?_ walked
    rw [Grammar.matching] at walked
    split at walked
    · next allowed => exact length_words known ▸ allowed
    · cases walked

/-- A use of a unary rule that fits the chart. -/
theorem Parser.made_of_use {p : Parser} {sentence : List WordId} {chart : Chart} {x : Fill}
    (sound : x.Sound p sentence chart) {u : UnaryUse} (used : u ∈ x.uses) :
    p.Made sentence chart x.span u.application := by
  obtain ⟨⟨g, r⟩, listed, use⟩ := List.mem_filterMap.1 (sound.uses.mem_iff.1 used)
  obtain ⟨use, -⟩ := Option.filter_eq_some_iff.1 use
  obtain ⟨rfl, rfl, ⟨labels, tailed, found⟩, -⟩ := unaryUse?_eq_some_iff.1 use
  obtain ⟨g, registered, listed⟩ := List.mem_flatMap.1 listed
  obtain ⟨r, stored, same⟩ := List.mem_map.1 listed
  cases same
  exact .rewritten registered stored tailed found

/-- Every edge of a forest comes from an application over the span of its head, and the limit of its
grammar allows for that span unless the rule is unary. The unary rules of all grammars go on
whatever the limits: where the tail of such a rule is, its head is, too. -/
theorem Parser.edges_made (p : Parser) (sentence : List WordId) :
    (∀ e ∈ (p.parse sentence).graph.edges.toList, ∃ span a,
      (p.parse sentence).chart.find? span a.rule.head = some e.head ∧
      e.unnumbered = a.edge e.head ∧ p.Made sentence (p.parse sentence).chart span a) ∧
    ∀ g ∈ p.grammars, ∀ r ∈ g.unaries, ∀ labels, UnaryRules.tail? r = some labels →
      ∀ span, ((p.parse sentence).chart.find? span labels).isSome →
        ((p.parse sentence).chart.find? span r.head).isSome := by
  obtain ⟨fills, filled⟩ := p.parse_filled sentence
  constructor
  · intro e stored
    obtain ⟨x, member, a, made, found, edge⟩ := filled.edge_made stored
    refine ⟨x.span, a, found, edge, ?_⟩
    rcases made with walked | ⟨u, used, rfl⟩
    · exact made_of_found (filled.span_mem member) walked
    · exact made_of_use (filled.sound x member) used
  · intro g registered r stored labels tailed span tail
    obtain ⟨x, member, rfl⟩ := filled.exists_fill (filled.span_of_found tail)
    exact filled.head_isSome member registered stored tailed tail

/-- The unary rule of the nouns, under a limit of one word. -/
def limitedGrammar : Grammar := (RuleTable.mk (nounRules.drop 3) 1 false).grammar

/-- The rules for nouns and pairs, with the unary rule in a grammar of its own. -/
def limitedParser : Parser :=
  { nounParser with
    grammars := [(RuleTable.mk (nounRules.take 3) defaultSpanLimit false).grammar, limitedGrammar] }

/-- The unary rule is used on a pair, which has two words. -/
theorem Parser.edges_beyond_limit : limitedGrammar ∈ limitedParser.grammars ∧
    limitedGrammar.spanLimit = 1 ∧ ∃ r ∈ limitedGrammar.unaries,
      ∃ e ∈ (limitedParser.parse [1, 1]).graph.edges.toList, ∃ tail,
        e.unnumbered = (Application.mk r [tail] false).edge e.head ∧
        (limitedParser.parse [1, 1]).graph.spanOf? e.head = some ⟨0, 2⟩ := by
  have registered : limitedGrammar ∈ limitedParser.grammars :=
    List.mem_cons_of_mem _ List.mem_cons_self
  have used : (limitedGrammar.unaries.filterMap
      ((limitedParser.parse [1, 1]).unaryEdge? ⟨0, 2⟩ limitedGrammar)).length = 1 := by
    decide +kernel
  obtain ⟨record, only⟩ := List.length_eq_one_iff.1 used
  obtain ⟨r, stored, called⟩ := List.mem_filterMap.1 (only ▸ List.mem_singleton_self record)
  obtain ⟨u, use, made⟩ := Option.bind_eq_some_iff.1 called
  obtain ⟨same_grammar, rfl, -⟩ := unaryUse?_eq_some_iff.1 use
  obtain ⟨fills, filled⟩ := limitedParser.parse_filled [1, 1]
  obtain ⟨x, member, here⟩ := filled.exists_fill (show ⟨0, 2⟩ ∈ Span.upTo 2 by decide)
  have edges := filled.unaryEdges_perm member
  rw [here] at edges
  obtain ⟨e, listed, same⟩ := List.mem_map.1 (edges.mem_iff.2
    (List.mem_flatMap.2 ⟨_, registered, List.mem_filterMap.2 ⟨_, stored, called⟩⟩))
  obtain ⟨kept, unary⟩ := List.mem_filter.1 listed
  refine ⟨registered, rfl, u.rule, stored, e, kept, u.tail, ?_, ?_⟩
  · split at made
    · cases made
    · obtain rfl := Option.some.inj made
      rw [same]
      have head_eq : e.head = u.head := congrArg EdgeRecord.head same
      rw [head_eq, UnaryUse.application, same_grammar]
      rfl
  · exact beq_iff_eq.1 (Bool.and_eq_true_iff.1 unary).2

end PackedForest
