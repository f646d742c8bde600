import PackedForest.Proofs.Grammar.Indexing
import PackedForest.Proofs.Graph.Showing
import PackedForest.Proofs.Parser.Checked
import PackedForest.Proofs.Parser.Trees

/-!
# From sentences to trees without a fault

Whatever tables a parser was loaded from, a sentence over its vocabulary is parsed, shown, counted
and read out without a fault (`Parser.LoadedIn.faultless`). Building the forest needs no number that
is missing. The forest refers to its own nodes and edges only and has no cycle, the vocabulary names
all that it mentions, and its probabilities are probabilities; so what reads it finds what it asks
for and comes to an end. Writing it down cannot fail at all.

Two settings are taken on trust by the program, and the theorem asks for them: the vocabulary names
the label for unknown words, and the number of target factors leaves room for tuples of labels. With
others there are faults (`Parser.LoadedIn.settings_at_fault`).
-/

namespace PackedForest

open Vocabulary

/-- Where probabilities are probabilities, the derivations are the first of the unfolding, checked
or not. -/
theorem Graph.derivations_eq {g : Graph} (indexed : g.Indexed) (acyclic : g.Acyclic)
    (probabilities : ∀ e ∈ g.edges.toList, isProbability e.probability = true) (check : Bool)
    {id : NodeId} (inside : id < g.nodes.size) (limit : Nat) :
    g.derivations check id limit = .ok (limited indexed acyclic limit id) := by
  refine (derivations_cases indexed acyclic check inside limit).resolve_right ?_
  rintro ⟨-, -, ⟨e, stored, -, improbable, -⟩, -⟩
  rw [probabilities e stored] at improbable
  cases improbable

/-- A rule that was read has labels for each slot of its source side, and a unary rule has a tail.
-/
theorem Rule.WellFormed.slots_found {r : Rule} (h : r.WellFormed) :
    (∀ symbol ∈ r.source, (r.step? symbol).isSome) ∧
      (r.isUnary = true → (UnaryRules.tail? r).isSome) := by
  constructor
  · intro symbol member
    have step := List.mem_map_of_mem (f := r.step?) member
    rw [← h.map_path] at step
    obtain ⟨s, -, same⟩ := List.mem_map.1 step
    rw [← same]
    rfl
  · intro unary
    rw [UnaryRules.tail?, List.isSome_head?]
    exact List.ne_nil_of_length_pos (by rw [h.slots_of_isUnary unary]; exact Nat.one_pos)

namespace Parser.LoadedIn

variable {p : Parser} {tables : List RuleTable} {v : Vocabulary} {sentence : List WordId}

/-- The vocabulary names every number in the forest. -/
theorem graph_named (h : p.LoadedIn tables v) (unknown : p.UnknownNamed v)
    (known : ∀ id ∈ sentence, v.Names id) : (p.parse sentence).graph.Named v := by
  have readable := h.readable unknown known
  have edges : ∀ e ∈ (p.parse sentence).graph.edges.toList, e.features.Named v ∧
      ∀ side ∈ e.targets, ∀ symbol ∈ side, symbol.Named v := by
    intro e stored
    obtain ⟨a, complete, edge⟩ := h.loadedFrom.edge_complete stored
    have features : e.features = a.rule.features := congrArg EdgeRecord.features edge
    have targets : e.targets = a.rule.targets := congrArg EdgeRecord.targets edge
    rw [features, targets]
    exact h.supplied_named known complete.rule
  refine ⟨readable.words, fun n stored => ?_, fun e stored => (edges e stored).1,
    fun e stored => (edges e stored).2⟩
  obtain ⟨i, here⟩ := List.mem_iff_getElem?.1 stored
  exact readable.sym (Array.getElem?_toList ▸ here)

/-- The derivations of a node are enumerated up to any limit. Each is made into a tree, its features
are shown, and its edges replay to it. -/
theorem derivations_read_out (h : p.LoadedIn tables v) (unknown : p.UnknownNamed v)
    (known : ∀ id ∈ sentence, v.Names id)
    (exponential : ∀ t ∈ tables, ∀ r ∈ t.rules,
      r.features.total < 0.0 → isProbability r.features.total.exp = true)
    (indexed : (p.parse sentence).graph.Indexed) (acyclic : (p.parse sentence).graph.Acyclic)
    (check : Bool) {id : NodeId} (inside : id < (p.parse sentence).graph.nodes.size)
    (limit : Nat) :
    (p.parse sentence).graph.derivations check id limit =
        .ok (Graph.limited indexed acyclic limit id) ∧
      ∀ d ∈ Graph.limited indexed acyclic limit id,
        Succeeds (d.toTree v (p.parse sentence).graph.words) ∧
        Succeeds (d.fragment.features.render v) ∧
        (p.parse sentence).graph.replay [id] d.edges = some [d] := by
  have probabilities : ∀ e ∈ (p.parse sentence).graph.edges.toList,
      isProbability e.probability = true :=
    fun e stored => h.loadedFrom.isProbability_of_edge exponential stored
  refine ⟨Graph.derivations_eq indexed acyclic probabilities check inside limit,
    fun d listed => ?_⟩
  have derives := Graph.of_mem_limited indexed acyclic listed
  obtain ⟨t, reads⟩ := derives.exists_reads (h.readable unknown known)
  have edges := Graph.edgesBelow_subset indexed (.cons derives .nil)
  rw [Derivation.edgesBelow, Derivation.edgesBelow, List.append_nil] at edges
  have named := h.graph_named unknown known
  exact ⟨⟨t, reads.tree⟩, Features.render_succeeds
    (Fragment.features_named fun e member => named.features e (edges member)),
    Graph.replay_edges indexed derives⟩

/-- A sentence whose words are in the vocabulary of the tables is parsed, shown and read out
without a fault, if the vocabulary names the label for unknown words and the settings leave room for
their tuples. The forest is built, also with every access checked, the node for the whole sentence
is looked up, and the forest is shown. For each node and up to any limit the derivations are
counted, enumerated, made into trees and replayed from the node, each edge under its head, and their
features are shown. -/
theorem faultless (h : p.LoadedIn tables v) (unknown : p.UnknownNamed v) (room : p.HasRoom)
    (known : ∀ id ∈ sentence, v.Names id)
    (exponential : ∀ t ∈ tables, ∀ r ∈ t.rules,
      r.features.total < 0.0 → isProbability r.features.total.exp = true) :
    (∀ t ∈ tables, ∀ r ∈ t.rules, (∀ symbol ∈ r.source, (r.step? symbol).isSome) ∧
      (r.isUnary = true → (UnaryRules.tail? r).isSome)) ∧
    p.build sentence = .ok (p.parse sentence) ∧
    p.parseChecked sentence = .ok (p.parse sentence) ∧
    p.tryRoot (p.parse sentence) = .ok (p.root? (p.parse sentence)) ∧
    Succeeds ((p.parse sentence).graph.render v) ∧
    ∃ (indexed : (p.parse sentence).graph.Indexed) (acyclic : (p.parse sentence).graph.Acyclic),
      ∀ id < (p.parse sentence).graph.nodes.size,
        (p.parse sentence).graph.derivationCount id = .ok (Graph.count indexed acyclic id) ∧
        ∀ check limit,
          (p.parse sentence).graph.derivations check id limit =
            .ok (Graph.limited indexed acyclic limit id) ∧
          Succeeds ((p.parse sentence).graph.derivationTrees v check id limit) ∧
          ∀ d ∈ Graph.limited indexed acyclic limit id,
            Succeeds (d.fragment.features.render v) ∧
            (p.parse sentence).graph.replay [id] d.edges = some [d] := by
  have indexed := p.graph_indexed sentence
  have acyclic := p.graph_acyclic sentence
  have shown := Graph.render_succeeds indexed (h.graph_named unknown known)
  have checked : p.parseChecked sentence = .ok (p.parse sentence) := by
    rw [h.loadedFrom.parseChecked_eq, room.build_eq]
    rfl
  refine ⟨fun t listed r stored => ((h.read t listed).isRead.wellFormed stored).slots_found,
    room.build_eq sentence, checked, room.tryRoot_eq _, shown, indexed, acyclic,
    fun id inside => ⟨Graph.derivationCount_eq indexed acyclic inside, fun check limit => ?_⟩⟩
  obtain ⟨derived, each⟩ :=
    h.derivations_read_out unknown known exponential indexed acyclic check inside limit
  refine ⟨derived, ?_, fun d listed => (each d listed).2⟩
  rw [Graph.derivationTrees, derived]
  exact .mapM fun d listed => (each d listed).1

theorem nounTable_exponential : ∀ t ∈ [nounTable], ∀ r ∈ t.rules,
    r.features.total < 0.0 → isProbability r.features.total.exp = true := by
  intro t listed
  obtain rfl := List.mem_singleton.1 listed
  decide +kernel

/-- A pair of nouns is parsed, shown and read out. -/
theorem faultless_nouns : nounParser.LoadedIn [nounTable] nounVocabulary ∧
    nounParser.UnknownNamed nounVocabulary ∧ nounParser.HasRoom ∧
    (∀ id ∈ [1, 1], nounVocabulary.Names id) ∧
    (∀ t ∈ [nounTable], ∀ r ∈ t.rules,
      r.features.total < 0.0 → isProbability r.features.total.exp = true) ∧
    nounParser.build [1, 1] = .ok (nounParser.parse [1, 1]) ∧
    nounParser.parseChecked [1, 1] = .ok (nounParser.parse [1, 1]) ∧
    Succeeds ((nounParser.parse [1, 1]).graph.render nounVocabulary) ∧
    Succeeds ((nounParser.parse [1, 1]).graph.derivationTrees nounVocabulary true 2 3) := by
  have room : nounParser.HasRoom := ⟨by decide, fun _ => by decide⟩
  obtain ⟨-, built, checked, -, shown, indexed, acyclic, each⟩ :=
    faultless nounParser_loadedIn nounParser_unknownNamed room nouns_named nounTable_exponential
  have inside : 2 < (nounParser.parse [1, 1]).graph.nodes.size := by decide +kernel
  exact ⟨nounParser_loadedIn, nounParser_unknownNamed, room, nouns_named, nounTable_exponential,
    built, checked, shown, ((each 2 inside).2 true 3).2.1⟩

/-- The small parser, with a label for unknown words that its vocabulary does not have. -/
def misnamedParser : Parser := { nounParser with unknownLabel := 7 }

/-- The small parser, set to more target factors than a tuple can have labels. -/
def crowdedParser : Parser := { nounParser with factors := 2 ^ 61 }

/-- With other settings there are faults. A label that the vocabulary does not have is looked up
when a forest with an unknown word is shown and when its trees are made, and tuples that are too
long keep every forest from being built. -/
theorem settings_at_fault :
    (∀ t ∈ [nounTable], ∀ r ∈ t.rules,
      r.features.total < 0.0 → isProbability r.features.total.exp = true) ∧
    (misnamedParser.LoadedIn [nounTable] nounVocabulary ∧
      (∀ id ∈ [4], nounVocabulary.Names id) ∧
      ((misnamedParser.parse [4]).graph.render nounVocabulary).mapError Fault.message =
        .error "word id 7 out of range (dict size 5)" ∧
      ¬ Succeeds ((misnamedParser.parse [4]).graph.derivationTrees nounVocabulary true 0 1)) ∧
    crowdedParser.LoadedIn [nounTable] nounVocabulary ∧
      (∀ id ∈ [1], nounVocabulary.Names id) ∧
      crowdedParser.build [1] = .error .capacityOverflow ∧
      crowdedParser.parseChecked [1] = .error (.fault .capacityOverflow) := by
  have misnamed : misnamedParser.LoadedIn [nounTable] nounVocabulary :=
    ⟨rfl, nounParser_loadedIn.read⟩
  have crowded : crowdedParser.LoadedIn [nounTable] nounVocabulary :=
    ⟨rfl, nounParser_loadedIn.read⟩
  have named : ∀ id ∈ [4], nounVocabulary.Names id :=
    List.forall_mem_singleton.2 (nounParser_unknownNamed rfl)
  have known : ∀ id ∈ [1], nounVocabulary.Names id :=
    List.forall_mem_singleton.2 ⟨"a", nounVocabulary_noun⟩
  have shown : ((misnamedParser.parse [4]).graph.render nounVocabulary).mapError Fault.message =
      .error "word id 7 out of range (dict size 5)" := by decide +kernel
  have no_trees : ¬ Succeeds
      ((misnamedParser.parse [4]).graph.derivationTrees nounVocabulary true 0 1) := by
    have stopped : ((misnamedParser.parse [4]).graph.derivationTrees nounVocabulary true 0 1).isOk =
        false := by decide +kernel
    rintro ⟨trees, made⟩
    rw [made] at stopped
    cases stopped
  have built : crowdedParser.build [1] = .error .capacityOverflow :=
    build_overflow (by decide) (List.cons_ne_nil _ _)
  have checked : crowdedParser.parseChecked [1] = .error (.fault .capacityOverflow) := by
    rw [crowded.loadedFrom.parseChecked_eq, built]
    rfl
  exact ⟨nounTable_exponential, ⟨misnamed, named, shown, no_trees⟩, crowded, known, built, checked⟩

end Parser.LoadedIn

end PackedForest
