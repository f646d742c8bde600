import PackedForest.Proofs.Parser.Choices
import PackedForest.Proofs.Parser.Edges
import PackedForest.Proofs.Parser.Naming

/-!
# What is in a forest

The edges of a forest come of rules of the tables and of words that are passed through, with a tail
for each slot (`LoadedFrom.edge_supplied`), and there are no more tails than words in the sentence.
Nodes are as they were added, but for their edges. The latter holds since a parse does nothing but
to apply rules, one at a time, which `Parser.parse_induction` turns into a principle: what an
application keeps, a parse keeps.
-/

namespace PackedForest

/-! ### Properties that applications keep -/

section Induction

variable {P : Forest → Prop}
  (keeps : ∀ span p a, P p.forest → P (SpanProgress.apply span p a).forest)

include keeps

theorem SpanProgress.foldl_apply_keeps (span : Span) (as : List Application) {p : SpanProgress}
    (h : P p.forest) : P (as.foldl (apply span) p).forest := by
  induction as generalizing p with
  | nil => exact h
  | cons a as ih => exact ih (keeps span p a h)

namespace UnaryProgress

variable {span : Span} {grammars : List Grammar} {p : UnaryProgress}

theorem apply_keeps (place : Nat) (g : Grammar) (step : UnaryStep) (h : P p.span.forest) :
    P (apply span place g p step).span.forest := by
  unfold apply
  split
  · exact h
  · extract_lets
    split
    · extract_lets
      split
      · exact h
      · exact keeps span _ _ h
    · exact h

theorem foldl_apply_keeps (place : Nat) (g : Grammar) (steps : List UnaryStep)
    (h : P p.span.forest) : P (steps.foldl (apply span place g) p).span.forest := by
  induction steps generalizing p with
  | nil => exact h
  | cons step steps ih => exact ih (apply_keeps keeps place g step h)

theorem applyClosures_keeps (labels : Labels) (h : P p.span.forest) :
    P (p.applyClosures span grammars labels).span.forest := by
  unfold applyClosures
  generalize grammars.zipIdx = placed
  induction placed generalizing p with
  | nil => exact h
  | cons x placed ih => exact ih (foldl_apply_keeps keeps x.2 x.1 _ h)

theorem run_keeps (fuel place : Nat) (h : P p.span.forest) :
    P (run span grammars fuel place p).span.forest := by
  induction fuel generalizing place p with
  | zero => exact h
  | succ fuel ih =>
      rw [run]
      split
      · exact h
      · exact ih _ (applyClosures_keeps keeps _ h)

end UnaryProgress

/-- What an application of a rule keeps, a parse keeps. -/
theorem Parser.parse_induction (p : Parser) (sentence : List WordId)
    (start : P ⟨{ Graph.empty with words := sentence }, .empty⟩) : P (p.parse sentence) := by
  unfold parse
  generalize Span.upTo sentence.length = spans
  generalize Forest.mk _ _ = f at start
  induction spans generalizing f with
  | nil => exact start
  | cons span spans ih =>
      refine ih _ ?_
      rw [fillSpan_eq, SpanProgress.applyUnaries]
      exact UnaryProgress.run_keeps keeps _ _
        (SpanProgress.foldl_apply_keeps keeps span _ start)

end Induction

/-- The nodes of a forest have no target words. -/
theorem Parser.targetWords_eq_none (p : Parser) (sentence : List WordId) :
    ∀ n ∈ (p.parse sentence).graph.nodes.toList, n.targetWords = none := by
  refine p.parse_induction (P := fun f => ∀ n ∈ f.graph.nodes.toList, n.targetWords = none)
    (fun span progress a old => ?_) sentence (by simp [Graph.empty])
  have bare : ∀ {g : Graph} {r : EdgeRecord}, (∀ n ∈ g.nodes.toList, n.targetWords = none) →
      ∀ n ∈ (g.pushEdge r).nodes.toList, n.targetWords = none := by
    intro g r old n member
    obtain ⟨i, here⟩ := List.mem_iff_getElem?.1 member
    rw [Array.getElem?_toList, Graph.getElem?_nodes_pushEdge, Option.map_eq_some_iff] at here
    obtain ⟨m, before, rfl⟩ := here
    have unset := old m (Array.mem_toList_iff.2 (Array.mem_of_getElem? before))
    split <;> exact unset
  simp only [SpanProgress.apply, Forest.findOrAdd]
  split
  · exact bare old
  · refine bare fun n member => ?_
    rw [Graph.pushNode, Array.toList_push, List.mem_append] at member
    rcases member with before | new
    · exact old n before
    · rw [List.mem_singleton.1 new]
      rfl

/-! ### The rules of the edges -/

theorem Rule.length_of_uses {sentence : List WordId} {chart : Chart} {span : Span} {r : Rule}
    {tails : List NodeId} (use : tails ∈ r.uses sentence chart span) :
    tails.length = r.slots.length := by
  obtain ⟨pieces, -, -, -, found⟩ := mem_uses.1 use
  rw [tails?, mapM_eq_some_iff] at found
  rw [← found.length_eq, List.length_range]

/-- No slot of a rule takes less than a word of the span it is used on. -/
theorem Rule.WellFormed.slots_le_of_uses {sentence : List WordId} {chart : Chart} {span : Span}
    {r : Rule} (h : r.WellFormed) {tails : List NodeId} (use : tails ∈ r.uses sentence chart span) :
    r.slots.length ≤ span.stop - span.start := by
  obtain ⟨pieces, length, cut, -, -⟩ := mem_uses.1 use
  calc r.slots.length = (r.source.filterMap Symbol.slot?).length := by rw [h.slots_eq]; simp
    _ ≤ r.source.length := List.length_filterMap_le _ _
    _ = pieces.length := length
    _ ≤ span.stop - span.start := cut.length_le

theorem Rule.WellFormed.slots_of_isUnary {r : Rule} (h : r.WellFormed) (unary : r.isUnary = true) :
    r.slots.length = 1 := by
  have slots := congrArg List.length h.slots_eq
  unfold isUnary at unary
  split at unary
  · next source =>
      rw [source, List.length_range] at slots
      exact slots.symm
  · cases unary

/-- The probability of a feature vector is one where the exponential of its total is not asked
for. -/
theorem Features.isProbability_probability {f : Features}
    (exponential : f.total < 0.0 → isProbability f.total.exp = true) :
    isProbability f.probability = true := by
  unfold probability
  split
  · next negative => exact exponential negative
  · decide +kernel

namespace Parser

variable {p : Parser} {tables : List RuleTable} {sentence : List WordId}

/-- The rules that a parser may apply on a sentence. -/
inductive Supplies (p : Parser) (tables : List RuleTable) (sentence : List WordId) : Rule → Prop
  | table {t : RuleTable} {r : Rule} (known : t ∈ tables) (stored : r ∈ t.rules) :
      Supplies p tables sentence r
  | unknown {word : WordId} (listed : word ∈ sentence) :
      Supplies p tables sentence (p.unknownRule word)

theorem Supplies.isProbability {r : Rule} (h : p.Supplies tables sentence r)
    (exponential : ∀ t ∈ tables, ∀ r ∈ t.rules,
      r.features.total < 0.0 → isProbability r.features.total.exp = true) :
    PackedForest.isProbability r.features.probability = true := by
  refine Features.isProbability_probability ?_
  cases h with
  | table listed stored => exact exponential _ listed _ stored
  | unknown listed =>
      change Features.empty.total < 0.0 →
        PackedForest.isProbability Features.empty.total.exp = true
      decide +kernel

/-- An application that gives each slot of a rule that may be applied a tail. -/
structure Complete (p : Parser) (tables : List RuleTable) (sentence : List WordId)
    (a : Application) : Prop where
  rule : p.Supplies tables sentence a.rule
  tails : a.tails.length = a.rule.slots.length
  few : a.rule.slots.length ≤ sentence.length

namespace LoadedFrom

variable (h : p.LoadedFrom tables)

include h

theorem found_complete {chart : Chart} {span : Span} (known : span ∈ Span.upTo sentence.length)
    {a : Application} (found : a ∈ p.found sentence chart span) :
    p.Complete tables sentence a := by
  rcases List.mem_append.1 ((h.found_perm known chart).mem_iff.1 found) with by_rule | passed
  · obtain ⟨t, table, -, r, stored, -, tails, use, rfl⟩ := mem_ruleApplications.1 by_rule
    have few := ((h.read t table).wellFormed stored).slots_le_of_uses use
    obtain ⟨-, inside⟩ := Span.mem_upTo.1 known
    exact ⟨.table table stored, Rule.length_of_uses use, show r.slots.length ≤ _ by omega⟩
  · obtain ⟨start, word, -, stands, -, -, rfl⟩ := h.mem_unknownApplications.1 passed
    exact ⟨.unknown (List.mem_of_getElem? stands), rfl, Nat.zero_le _⟩

theorem unary_complete {g : Grammar} (listed : g ∈ p.grammars) {r : Rule} (unary : r ∈ g.unaries)
    (nonempty : 0 < sentence.length) (tail : NodeId) (keepSourceText : Bool) :
    p.Complete tables sentence ⟨r, [tail], keepSourceText⟩ := by
  rw [h.grammars] at listed
  obtain ⟨t, table, rfl⟩ := List.mem_map.1 listed
  obtain ⟨stored, single⟩ := List.mem_filter.1 unary
  have slots := ((h.read t table).wellFormed stored).slots_of_isUnary single
  exact ⟨.table table stored, slots.symm, slots.trans_le nonempty⟩

/-- Every edge comes of such an application. -/
theorem edge_complete {e : Edge} (stored : e ∈ (p.parse sentence).graph.edges.toList) :
    ∃ a, p.Complete tables sentence a ∧ e.unnumbered = a.edge e.head := by
  obtain ⟨fills, filled⟩ := p.parse_filled sentence
  obtain ⟨x, member, a, walk | ⟨u, use, rfl⟩, -, edge⟩ := filled.edge_made stored
  · exact ⟨a, h.found_complete (filled.span_mem member) walk, edge⟩
  · obtain ⟨nonempty, inside⟩ := Span.mem_upTo.1 (filled.span_mem member)
    obtain ⟨⟨g, r⟩, listed, kept⟩ :=
      List.mem_filterMap.1 ((filled.sound x member).uses.mem_iff.1 use)
    obtain ⟨g, known, listed⟩ := List.mem_flatMap.1 listed
    obtain ⟨r, unary, same⟩ := List.mem_map.1 listed
    cases same
    obtain ⟨rfl, rfl, -⟩ := unaryUse?_eq_some_iff.1 (Option.filter_eq_some_iff.1 kept).1
    exact ⟨_, h.unary_complete known unary (by omega) _ _, edge⟩

/-- Edges have probabilities, if the exponentials that the tables ask for are. -/
theorem isProbability_of_edge (exponential : ∀ t ∈ tables, ∀ r ∈ t.rules,
      r.features.total < 0.0 → isProbability r.features.total.exp = true) {e : Edge}
    (stored : e ∈ (p.parse sentence).graph.edges.toList) :
    isProbability e.probability = true := by
  obtain ⟨a, complete, edge⟩ := h.edge_complete stored
  have probability : e.probability = a.rule.features.probability :=
    congrArg EdgeRecord.probability edge
  exact probability ▸ complete.rule.isProbability exponential

end LoadedFrom

/-- The vocabulary names the feature names and target words of the rules that may be applied. -/
theorem LoadedIn.supplied_named {v : Vocabulary} (h : p.LoadedIn tables v)
    (known : ∀ id ∈ sentence, v.Names id) {r : Rule} (supplied : p.Supplies tables sentence r) :
    (∀ entry ∈ r.features.entries, v.Names entry.1) ∧
      ∀ side ∈ r.targets, ∀ symbol ∈ side, symbol.Named v := by
  cases supplied with
  | table listed stored =>
      have named := (h.read _ listed).named stored
      exact ⟨named.features, named.targets⟩
  | @unknown word listed =>
      refine ⟨by simp [unknownRule, Rule.passThrough, Features.empty], ?_⟩
      intro side target symbol member
      rw [List.eq_of_mem_replicate target, List.mem_singleton] at member
      obtain ⟨s, named⟩ := known word listed
      obtain ⟨i, rfl, -⟩ := Vocabulary.symbol_eq_ok_iff.1 named
      exact member ▸ ⟨s, named⟩

end Parser

end PackedForest
