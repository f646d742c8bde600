import PackedForest.CommandLine.Session
import PackedForest.Proofs.Parser.Acyclic
import PackedForest.Proofs.Parser.Room
import PackedForest.Proofs.Renaming.Derivations
import PackedForest.Proofs.Renaming.Forest

/-!
# Sentences that came before

A word that no table knows is numbered when it first comes up, so its number tells how many others
came before. Nothing else does. Whatever was read earlier, a sentence has the same forest, up to the
renaming that goes by the strings, and the same text of it, counts and trees
(`Parser.LoadedIn.parse_independent`). A session gives the same answer
(`CommandLine.Session.answer_independent`).
-/

namespace PackedForest

open Vocabulary

/-- The vocabulary that is left when some sentences were read. -/
def Vocabulary.afterReading (v : Vocabulary) (sentences : List String) : Vocabulary :=
  sentences.foldl (fun v sentence => ((internWords sentence).run v).2) v

theorem Vocabulary.extends_afterReading (v : Vocabulary) (sentences : List String) :
    (v.afterReading sentences).Extends v := by
  induction sentences generalizing v with
  | nil => exact .refl v
  | cons sentence sentences ih => exact (ih _).trans (internWords_spec sentence v).1

/-- The numbers of the words of a sentence that is read after others, and the vocabulary that is
left. -/
def Vocabulary.readAfter (v : Vocabulary) (earlier : List String) (sentence : String) :
    List WordId × Vocabulary :=
  (internWords sentence).run (v.afterReading earlier)

theorem Vocabulary.readAfter_spec (v : Vocabulary) (earlier : List String) (sentence : String) :
    (v.readAfter earlier sentence).2.Extends v ∧
      (v.readAfter earlier sentence).1.mapM (v.readAfter earlier sentence).2.symbol =
        .ok ((Text.words sentence.toList).map String.ofList) := by
  obtain ⟨more, named⟩ := internWords_spec sentence (v.afterReading earlier)
  exact ⟨more.trans (v.extends_afterReading earlier), named⟩

/-- The numbers that some strings have in one vocabulary are translated to those in another. -/
theorem Vocabulary.map_translate {w w' : Vocabulary} {ids ids' : List WordId}
    {strings : List String} (named : ids.mapM w.symbol = .ok strings)
    (named' : ids'.mapM w'.symbol = .ok strings) :
    ids.map (renameId (w.translate w')) = ids' ∧
      ∀ id ∈ ids, w'.symbol (renameId (w.translate w') id) = w.symbol id := by
  rw [mapM_eq_ok_iff] at named named'
  induction named generalizing ids' with
  | nil =>
      obtain rfl := List.forall₂_nil_right_iff.1 named'
      exact ⟨rfl, by simp⟩
  | @cons id s ids strings here _ ih =>
      obtain ⟨id', ids', here', later', rfl⟩ := List.forall₂_cons_right_iff.1 named'
      obtain ⟨rest, rest_named⟩ := ih later'
      have same := renameId_translate here here'
      refine ⟨by rw [List.map_cons, same, rest], List.forall_mem_cons.2 ⟨?_, rest_named⟩⟩
      rw [same, here, here']

theorem Symbol.render_ofId {w : Vocabulary} {id : WordId} {s : String}
    (named : w.symbol id = .ok s) : (ofId id).render w = .ok s := by
  obtain ⟨i, rfl, -⟩ := symbol_eq_ok_iff.1 named
  exact named

variable {v w w' : Vocabulary} {f : Nat → Nat}

/-- The sum of the features along a derivation stays if those of the edges do. -/
theorem Derivation.fragment_features_rename {d : Derivation}
    (same : ∀ e ∈ d.edges, e.features.rename f = e.features) :
    (d.rename f).fragment.features = d.fragment.features := by
  rw [fragment, Fragment.features, edges_rename, List.foldl_map]
  refine List.foldl_ext _ _ _ fun sum e listed => ?_
  rw [Edge.rename, same e listed]

namespace Graph.Renames

variable {g : Graph} (h : g.Renames v w w' f) (indexed : g.Indexed) (acyclic : g.Acyclic)

include h indexed

theorem derivationLine_eq {id : NodeId} {d : Derivation} (derives : d.Of g id) :
    CommandLine.derivationLine w' (g.rename f).words (d.rename f) =
      CommandLine.derivationLine w g.words d := by
  have stored := edgesBelow_subset indexed (.cons derives .nil)
  rw [Derivation.edgesBelow, Derivation.edgesBelow, List.append_nil] at stored
  have named : ∀ e ∈ d.edges, e.features.Named v := fun e listed => h.features e (stored listed)
  have features : (d.rename f).fragment.features = d.fragment.features :=
    Derivation.fragment_features_rename fun e listed =>
      Features.rename_eq h.vocabulary.fixed (named e listed)
  have sum : d.fragment.features.Named v := Fragment.features_named named
  rw [CommandLine.derivationLine, CommandLine.derivationLine, h.toTree_eq derives, features,
    sum.render_eq h.vocabulary.source h.vocabulary.target, d.probability_rename]

include acyclic

theorem derivationReport_eq (root : NodeId) (trees : Nat) :
    CommandLine.derivationReport w' (g.rename f) root trees =
      CommandLine.derivationReport w g root trees := by
  rw [CommandLine.derivationReport, CommandLine.derivationReport, g.derivationCount_rename,
    g.derivations_rename]
  refine bind_congr fun count => ?_
  cases found : g.derivations true root trees with
  | error fault => rfl
  | ok ds =>
      have lines := mapM_map_congr fun d listed =>
        h.derivationLine_eq indexed (of_mem_derivations indexed acyclic found listed)
      refine bind_ok rfl ?_
      rw [lines]
      rfl

end Graph.Renames

/-- Two forests over a vocabulary `v` are the same but for the numbers of words that `v` does not
have. These are renamed by the strings that they name in `w` and in `w'`, and the renaming leaves
the numbers of `v` alone. The texts are the same: that of the forest, the trees of its nodes, and
the report on a node with the number of its derivations. -/
structure Forest.SameByStrings (v w w' : Vocabulary) (x x' : Forest) : Prop where
  strings : ∀ {id id' : WordId} {s : String}, w.symbol id = .ok s → w'.symbol id' = .ok s →
    renameId (w.translate w') id = id'
  fixed : v.FixedBy (w.translate w')
  forest : x' = x.rename (w.translate w')
  render : x'.graph.render w' = x.graph.render w
  count : ∀ id, x'.graph.derivationCount id = x.graph.derivationCount id
  trees : ∀ check id limit,
    x'.graph.derivationTrees w' check id limit = x.graph.derivationTrees w check id limit
  report : ∀ root trees, CommandLine.derivationReport w' x'.graph root trees =
    CommandLine.derivationReport w x.graph root trees

theorem Forest.SameByStrings.tryRoot_eq {x x' : Forest} (h : Forest.SameByStrings v w w' x x')
    (p : Parser) : p.tryRoot x' = p.tryRoot x := by
  rw [h.forest]
  exact p.tryRoot_rename x

namespace Parser.LoadedIn

variable {p : Parser} {tables : List RuleTable} {ids : List WordId}

/-- The forest of a sentence whose words are named alike before and after. -/
theorem renames (h : p.LoadedIn tables v) (unknown : p.UnknownNamed v)
    (vocabulary : v.Renames w w' f) (known : ∀ id ∈ ids, w.Names id)
    (words : ∀ id ∈ ids, w'.symbol (renameId f id) = w.symbol id) :
    (p.parse ids).graph.Renames v w w' f := by
  obtain ⟨fills, filled⟩ := p.parse_filled ids
  refine ⟨vocabulary, by rwa [filled.words], fun n stored => ?_, fun e stored => ?_,
    fun e stored => ?_⟩
  · obtain ⟨i, here⟩ := List.mem_iff_getElem?.1 stored
    rw [Array.getElem?_toList] at here
    obtain ⟨labels, found, sym⟩ := filled.wellFormed.exists_key here
    rw [← sym]
    exact h.named_of_derives unknown (h.loadedFrom.derives_of_isSome (by rw [found]; rfl))
  · obtain ⟨a, complete, edge⟩ := h.loadedFrom.edge_complete stored
    have features : e.features = a.rule.features := congrArg EdgeRecord.features edge
    have rule := complete.rule
    rw [features]
    generalize a.rule = r at rule
    cases rule with
    | table listed stored => exact ((h.read _ listed).named stored).features
    | unknown listed => exact fun entry none_here => by cases none_here
  · obtain ⟨a, complete, edge⟩ := h.loadedFrom.edge_complete stored
    have targets : e.targets = a.rule.targets := congrArg EdgeRecord.targets edge
    have rule := complete.rule
    rw [targets]
    generalize a.rule = r at rule
    intro side target symbol member
    cases rule with
    | table listed stored =>
        have named := ((h.read _ listed).named stored).targets side target symbol member
        rw [named.rename_eq vocabulary.fixed]
        cases symbol with
        | slot index => rfl
        | word id =>
            obtain ⟨s, here⟩ := named
            exact (vocabulary.target.symbol here).trans (vocabulary.source.symbol here).symm
    | @unknown word listed =>
        obtain rfl := List.eq_of_mem_replicate target
        obtain rfl := List.mem_singleton.1 member
        obtain ⟨s, here⟩ := known word listed
        rw [← Symbol.ofId_renameId, Symbol.render_ofId here,
          Symbol.render_ofId ((words word listed).trans here)]

/-- Forests of one sentence, whose words are numbered in two ways. -/
theorem sameByStrings (h : p.LoadedIn tables v) (unknown : p.UnknownNamed v)
    (more : w.Extends v) (more' : w'.Extends v) {ids ids' : List WordId} {strings : List String}
    (named : ids.mapM w.symbol = .ok strings) (named' : ids'.mapM w'.symbol = .ok strings) :
    Forest.SameByStrings v w w' (p.parse ids) (p.parse ids') := by
  have fixed := translate_fixed more more'
  obtain ⟨rfl, words⟩ := map_translate named named'
  have known : ∀ id ∈ ids, w.Names id := fun id listed =>
    let ⟨s, _, here⟩ := exists_of_forall₂_left (mapM_eq_ok_iff.1 named) listed
    ⟨s, here⟩
  have parsed := h.parse_rename fixed unknown ids
  have renames := h.renames unknown ⟨more, more', fixed⟩ known words
  have indexed := p.graph_indexed ids
  have acyclic := p.graph_acyclic ids
  constructor
  case strings => exact fun named named' => renameId_translate named named'
  case fixed => exact fixed
  case forest => exact parsed
  case render => rw [parsed]; exact renames.render_eq
  case count => intro id; rw [parsed]; exact Graph.derivationCount_rename _ _ id
  case trees =>
    intro check id limit
    rw [parsed]
    exact renames.derivationTrees_eq indexed acyclic check id limit
  case report =>
    intro root trees
    rw [parsed]
    exact renames.derivationReport_eq indexed acyclic root trees

/-- What was read before a sentence leaves no trace in its forest, but for the numbers of words that
the tables do not know. -/
theorem parse_independent (h : p.LoadedIn tables v) (unknown : p.UnknownNamed v)
    (earlier earlier' : List String) (sentence : String) :
    Forest.SameByStrings v (v.readAfter earlier sentence).2 (v.readAfter earlier' sentence).2
      (p.parse (v.readAfter earlier sentence).1) (p.parse (v.readAfter earlier' sentence).1) := by
  obtain ⟨more, named⟩ := v.readAfter_spec earlier sentence
  obtain ⟨more', named'⟩ := v.readAfter_spec earlier' sentence
  exact h.sameByStrings unknown more more' named named'

/-- A noun beside a word that the table does not know: the forest is shown by the same text, though
the word has another number after another sentence. -/
theorem parse_independent_nouns : nounParser.LoadedIn [nounTable] nounVocabulary ∧
    nounParser.UnknownNamed nounVocabulary ∧
    (nounVocabulary.readAfter [] "a d").1 = [1, 5] ∧
    (nounVocabulary.readAfter ["e a"] "a d").1 = [1, 6] ∧
    (nounParser.parse [1, 6]).graph.render (nounVocabulary.readAfter ["e a"] "a d").2 =
      (nounParser.parse [1, 5]).graph.render (nounVocabulary.readAfter [] "a d").2 := by
  have shown := (parse_independent nounParser_loadedIn nounParser_unknownNamed [] ["e a"]
    "a d").render
  have first : (nounVocabulary.readAfter [] "a d").1 = [1, 5] := by decide +kernel
  have later : (nounVocabulary.readAfter ["e a"] "a d").1 = [1, 6] := by decide +kernel
  rw [first, later] at shown
  exact ⟨nounParser_loadedIn, nounParser_unknownNamed, first, later, shown⟩

end Parser.LoadedIn

namespace CommandLine.Session

/-- The session once it has answered some lines. -/
def after (s : Session) (lines : List String) : Session :=
  lines.foldl (fun s line => (s.answer line).2) s

theorem after_eq (s : Session) (lines : List String) :
    s.after lines = { s with vocabulary := s.vocabulary.afterReading lines } := by
  induction lines generalizing s with
  | nil => rfl
  | cons line lines ih => exact ih _

/-- Where forests are shown as text, an answer does not depend on the lines before it. -/
theorem answer_independent {s : Session} {tables : List RuleTable}
    (h : s.parser.LoadedIn tables s.vocabulary) (unknown : s.parser.UnknownNamed s.vocabulary)
    (text : s.options.json = false) (earlier earlier' : List String) (sentence : String) :
    ((s.after earlier').answer sentence).1 = ((s.after earlier).answer sentence).1 := by
  obtain ⟨more, named⟩ := s.vocabulary.readAfter_spec earlier sentence
  obtain ⟨more', named'⟩ := s.vocabulary.readAfter_spec earlier' sentence
  have same := h.sameByStrings unknown more more' named named'
  have built := h.build_rename (translate_fixed more more') unknown
    (s.vocabulary.readAfter earlier sentence).1
  rw [(map_translate named named').1] at built
  have answered : ∀ earlier, ((s.after earlier).answer sentence).1 =
      s.parser.build (s.vocabulary.readAfter earlier sentence).1 >>= CommandLine.report
        { s with vocabulary := (s.vocabulary.readAfter earlier sentence).2 } := by
    intro earlier
    rw [after_eq, answer, Vocabulary.readAfter]
    cases (internWords sentence).run (s.vocabulary.afterReading earlier)
    rfl
  rw [answered, answered, built]
  rcases s.parser.build_gives (s.vocabulary.readAfter earlier sentence).1 with found | ⟨-, stopped⟩
  · rw [found, Except.map, ← same.forest]
    change CommandLine.report _ _ = CommandLine.report _ _
    simp only [CommandLine.report, text, Bool.false_eq_true, if_false, same.render,
      same.tryRoot_eq, same.report]
  · simp only [stopped, Except.map, bind, Except.bind]

end CommandLine.Session

end PackedForest
