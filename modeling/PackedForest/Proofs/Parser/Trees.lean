import PackedForest.Proofs.Derivation.Reading
import PackedForest.Proofs.Graph.Enumeration
import PackedForest.Proofs.Parser.Naming
import PackedForest.Proofs.Parser.Packing

/-!
# The trees of a parsed sentence

Where the tables and the sentence were read into one vocabulary, which names the label for unknown
words as well, every derivation of a node reads back the words of its span
(`Parser.LoadedIn.derivationTrees_read_back`). That is so since each edge of the forest goes by a
cut of the span of its head: the pieces of a rule, the one position of a word that is passed
through, or the whole span for a unary rule.
-/

namespace PackedForest

open Vocabulary

/-- The use of a rule over a span goes by the cut that it takes. -/
theorem Forest.WellFormed.spelled_of_use {f : Forest} (wf : f.WellFormed) {r : Rule}
    (read : r.WellFormed) {span : Span} {e : Edge}
    (use : e.tails ∈ r.uses f.graph.words f.chart span) : f.graph.Spelled span e := by
  obtain ⟨pieces, length, cut, fits, found⟩ := Rule.mem_uses.1 use
  refine ⟨r.source, pieces, length, cut, fits, ?_⟩
  rw [read.tails?_eq _ length, Rule.mapM_eq_some_iff] at found
  rw [← List.forall₂_eq_eq_eq, List.forall₂_map_left_iff, List.forall₂_map_right_iff]
  refine found.flip.imp fun t gap filled_by => ?_
  obtain ⟨labels, -, tail_found⟩ := Option.bind_eq_some_iff.1 filled_by
  exact wf.spanOf?_eq tail_found

namespace Parser.LoadedIn

variable {p : Parser} {tables : List RuleTable} {v : Vocabulary} {sentence : List WordId}

/-- What is applied on a span goes by a cut of the span. -/
theorem spelled_of_applied (h : p.LoadedIn tables v) (known : ∀ id ∈ sentence, v.Names id)
    {fills : List Fill} (filled : p.Filled sentence fills) {x : Fill} (member : x ∈ fills)
    {a : Application} (applied : a ∈ x.found ++ x.uses.map UnaryUse.application) {e : Edge}
    (tails : e.tails = a.tails) : (p.parse sentence).graph.Spelled x.span e := by
  have wf := filled.wellFormed
  obtain ⟨nonempty, -⟩ := Span.mem_upTo.1 (filled.span_mem member)
  have whole : x.span.IsCut [x.span] := ⟨rfl, nonempty, rfl⟩
  rcases List.mem_append.1 applied with walk | unary
  · have perm := h.loadedFrom.found_perm (filled.span_mem member) (p.parse sentence).chart
    rw [← (filled.sound x member).found] at perm
    rcases List.mem_append.1 (perm.mem_iff.1 walk) with by_rule | passed
    · obtain ⟨t, table, -, r, stored, -, ts, use, rfl⟩ := LoadedFrom.mem_ruleApplications.1 by_rule
      refine wf.spelled_of_use ((h.read t table).isRead.wellFormed stored) ?_
      rw [tails, filled.words]
      exact use
    · obtain ⟨start, word, here, stands, -, -, rfl⟩ := h.loadedFrom.mem_unknownApplications.1 passed
      obtain ⟨s, named⟩ := known word (List.mem_of_getElem? stands)
      obtain ⟨i, rfl, -⟩ := symbol_eq_ok_iff.1 named
      refine ⟨[.word i], [x.span], rfl, whole, ?_, by rw [tails]; rfl⟩
      rw [here, filled.words]
      simpa [Symbol.Fits] using stands
  · obtain ⟨u, use, rfl⟩ := List.mem_map.1 unary
    obtain ⟨⟨labels, tail_found⟩, -⟩ := (filled.sound x member).between u use
    refine ⟨[.slot 0], [x.span], rfl, whole, by simp [Symbol.Fits], ?_⟩
    rw [tails]
    exact congrArg (fun s => [s]) (wf.spanOf?_eq tail_found)

/-- The forest of a sentence whose words are in the vocabulary can be read. -/
theorem readable (h : p.LoadedIn tables v) (unknown : p.UnknownNamed v)
    (known : ∀ id ∈ sentence, v.Names id) : (p.parse sentence).graph.Readable v := by
  obtain ⟨fills, filled⟩ := p.parse_filled sentence
  have wf := filled.wellFormed
  refine ⟨?_, fun {id node} here => ?_, fun {id node} here => ?_, fun {id node} here => ?_⟩
  · rw [filled.words]
    exact known
  · obtain ⟨labels, found, sym⟩ := wf.exists_key here
    rw [← sym]
    exact h.named_of_derives unknown (h.loadedFrom.derives_of_isSome (by rw [found]; rfl))
  · obtain ⟨labels, found, -⟩ := wf.exists_key here
    exact mt (wf.indexed.edgesOf_eq_nil_iff here).2 (filled.edgesOf_ne_nil found)
  · intro e building
    obtain ⟨labels, found, -⟩ := wf.exists_key here
    obtain ⟨x, member, here_span⟩ := filled.exists_fill (filled.span_of_found (by rw [found]; rfl))
    rw [← here_span] at found ⊢
    have made := List.mem_map_of_mem (f := Edge.unnumbered) building
    rw [filled.edgesOf member found] at made
    obtain ⟨a, applied, same⟩ := List.mem_map.1 made
    have tails : e.tails = a.tails := (congrArg EdgeRecord.tails same).symm
    exact h.spelled_of_applied known filled member (List.mem_of_mem_filter applied) tails

/-- The derivations of a node of a forest read back the words of its span, up to any limit. Each
tree is tiled, and it has a branch for each edge of the fragment, whose edges replay to the
derivation. Where probabilities are checked, the fault of an edge below the node may come instead
of the trees. -/
theorem derivationTrees_read_back (h : p.LoadedIn tables v) (unknown : p.UnknownNamed v)
    (known : ∀ id ∈ sentence, v.Names id) {id : NodeId} {node : Node}
    (here : (p.parse sentence).graph.nodes[id]? = some node) (limit : Nat) :
    ∃ ds trees, (p.parse sentence).graph.derivations false id limit = .ok ds ∧
      (p.parse sentence).graph.derivationTrees v false id limit = .ok trees ∧
      List.Forall₂ (fun d t => t.span = node.span ∧ t.ReadsBack v sentence ∧
        t.branchCount = d.edges.length ∧
        (p.parse sentence).graph.replay [id] d.edges = some [d]) ds trees ∧
      ((p.parse sentence).graph.derivationTrees v true id limit = .ok trees ∨
        ∃ fault, (p.parse sentence).graph.Improbable id fault ∧
          (p.parse sentence).graph.derivationTrees v true id limit = .error fault) := by
  obtain ⟨fills, filled⟩ := p.parse_filled sentence
  have indexed := p.graph_indexed sentence
  have acyclic := p.graph_acyclic sentence
  have inside : id < (p.parse sentence).graph.nodes.size :=
    (Array.getElem?_eq_some_iff.1 here).1
  have readable := h.readable unknown known
  have each : ∀ d ∈ Graph.limited indexed acyclic limit id, ∃ t,
      d.Reads (p.parse sentence).graph v id t ∧
        (p.parse sentence).graph.replay [id] d.edges = some [d] := by
    intro d listed
    have derives := Graph.of_mem_limited indexed acyclic listed
    obtain ⟨t, reads⟩ := derives.exists_reads readable
    exact ⟨t, reads, Graph.replay_edges indexed derives⟩
  obtain ⟨trees, made⟩ := exists_forall₂ each
  have built : (Graph.limited indexed acyclic limit id).mapM
      (·.toTree v (p.parse sentence).graph.words) = .ok trees :=
    mapM_eq_ok_iff.2 (made.imp fun _ _ reads => reads.1.tree)
  have trees_of : ∀ check, (p.parse sentence).graph.derivations check id limit =
      .ok (Graph.limited indexed acyclic limit id) →
      (p.parse sentence).graph.derivationTrees v check id limit = .ok trees := by
    intro check derived
    rw [Graph.derivationTrees, derived]
    exact built
  have derived := (Graph.derivations_cases indexed acyclic false inside limit).resolve_right
    fun stopped => Bool.noConfusion stopped.1
  refine ⟨_, trees, derived, trees_of false derived, made.imp fun d t reads => ?_, ?_⟩
  · obtain ⟨reads, replays⟩ := reads
    have span := reads.span
    rw [Graph.spanOf?, here] at span
    exact ⟨(Option.some.inj span).symm, filled.words ▸ reads.read, reads.count, replays⟩
  · rcases Graph.derivations_cases indexed acyclic true inside limit with
      derived | ⟨-, fault, improbable, stopped⟩
    · exact .inl (trees_of true derived)
    · refine .inr ⟨fault, improbable, ?_⟩
      rw [Graph.derivationTrees, stopped]
      rfl

/-- The trees of a pair of nouns have the two nouns as their leaves. -/
theorem derivationTrees_read_back_nouns : nounParser.LoadedIn [nounTable] nounVocabulary ∧
    nounParser.UnknownNamed nounVocabulary ∧ (∀ id ∈ [1, 1], nounVocabulary.Names id) ∧
    (nounParser.parse [1, 1]).graph.spanOf? 2 = some ⟨0, 2⟩ ∧
    ∃ trees, (nounParser.parse [1, 1]).graph.derivationTrees nounVocabulary false 2 3 = .ok trees ∧
      ∀ t ∈ trees, t.leaves = ["a", "a"] := by
  have pair : (nounParser.parse [1, 1]).graph.spanOf? 2 = some ⟨0, 2⟩ := by decide +kernel
  obtain ⟨node, here, span⟩ := Option.map_eq_some_iff.1 pair
  obtain ⟨ds, trees, -, built, read, -⟩ :=
    derivationTrees_read_back nounParser_loadedIn nounParser_unknownNamed nouns_named here 3
  refine ⟨nounParser_loadedIn, nounParser_unknownNamed, nouns_named, pair, trees, built,
    fun t listed => ?_⟩
  obtain ⟨d, -, t_span, reads, -⟩ := exists_of_forall₂_left read.flip listed
  have leaves := reads.leaves
  rw [t_span, span] at leaves
  have nouns : [1, 1].mapM nounVocabulary.symbol = .ok ["a", "a"] :=
    mapM_eq_ok_iff.2 (.cons nounVocabulary_noun (.cons nounVocabulary_noun .nil))
  exact (Except.ok.inj (nouns.symm.trans leaves)).symm

end Parser.LoadedIn

end PackedForest
