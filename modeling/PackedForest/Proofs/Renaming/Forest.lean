import PackedForest.Proofs.Grammar.Indexing
import PackedForest.Proofs.Parser.Contents
import PackedForest.Proofs.Renaming.Graph

/-!
# Forests under a renaming

Tables know the numbers of the vocabulary that they were read into and no others. A walk through a
trie finds the same under a renaming that leaves these alone: where it looks for a word that the
tables do not have, it looks for another such word afterwards (`Match.through_rename`). So the same
rules are applied in the same places, and only the rule of a word that is passed through is another
one. The forest of the renamed sentence is the renamed forest, with the chart as it was
(`Parser.LoadedIn.parse_rename`), and where the settings leave no room for the one they leave none
for the other (`Parser.LoadedIn.build_rename`).
-/

namespace PackedForest

open Vocabulary

variable {v : Vocabulary} {f : Nat → Nat}

/-! ### The walk through the trie -/

/-- The vocabulary names all words on the paths of the trie. -/
def Trie.WordsIn (v : Vocabulary) (t : Trie) : Prop :=
  ∀ path u, t.Follows path u → ∀ id, .word id ∈ path → v.Names id

namespace Trie.WordsIn

variable {t child : Trie}

theorem named (h : t.WordsIn v) {id : WordId} (found : t.child? (.word id) = some child) :
    v.Names id :=
  h _ _ (.word (mem_wordBranches.2 (mem_of_child? found)) (.nil child)) id List.mem_cons_self

theorem word (h : t.WordsIn v) {id : WordId} (found : t.child? (.word id) = some child) :
    child.WordsIn v := fun _ u rest id later =>
  h _ u (.word (mem_wordBranches.2 (mem_of_child? found)) rest) id (List.mem_cons_of_mem _ later)

theorem gap (h : t.WordsIn v) {labels : Labels} (branch : (labels, child) ∈ t.gapBranches) :
    child.WordsIn v := fun _ u rest id later =>
  h _ u (.gap branch rest) id (List.mem_cons_of_mem _ later)

/-- A word that is renamed leads to where it led before. -/
theorem child?_rename (h : t.WordsIn v) (fixed : v.FixedBy f) (word : WordId) :
    t.child? (.word (renameId f word)) = t.child? (.word word) := by
  by_cases known : v.Names word ∨ v.Names (renameId f word)
  · rw [fixed word known]
  · obtain ⟨before, after⟩ := not_or.1 known
    rw [Option.eq_none_iff_forall_ne_some.2 fun _ found => before (h.named found),
      Option.eq_none_iff_forall_ne_some.2 fun _ found => after (h.named found)]

end Trie.WordsIn

theorem Match.through_rename (fixed : v.FixedBy f) (chart : Chart) (start : Nat) {t : Trie}
    (spelled : t.WordsIn v) (pos : Nat) (words : List WordId) :
    through chart start t pos (words.map (renameId f)) = through chart start t pos words := by
  induction size : words.length using Nat.strong_induction_on generalizing t pos words with
  | _ size ih =>
      subst size
      cases words with
      | nil => rfl
      | cons word words =>
          rw [List.map_cons, through, through, spelled.child?_rename fixed, List.length_map]
          congr 1
          · cases found : t.child? (.word word) with
            | none => rfl
            | some child => exact ih _ (Nat.lt_succ_self _) (spelled.word found) _ _ rfl
          · refine List.flatMap_congr fun branch listed => List.flatMap_congr fun more _ => ?_
            cases chart.find? ⟨pos, pos + more + 1⟩ branch.1 with
            | none => rfl
            | some tail =>
                rw [← List.map_drop]
                exact congrArg _ (ih _ length_drop_lt (spelled.gap listed) _ _ rfl)

theorem Grammar.matching_rename {g : Grammar} (spelled : g.trie.WordsIn v) (fixed : v.FixedBy f)
    (chart : Chart) (start : Nat) (words : List WordId) :
    g.matching chart start (words.map (renameId f)) = g.matching chart start words := by
  rw [matching, matching, List.length_map, Match.through_rename fixed chart start spelled]

/-- The trie of a table has the words of its rules. -/
theorem RuleTable.IsReadInto.wordsIn {t : RuleTable} (h : t.IsReadInto v) :
    t.grammar.trie.WordsIn v := by
  intro path u follows id listed
  have indexed := Grammar.trie_indexes t.rules
  have found := indexed.follows_iff.1 follows
  rcases (indexed.isSome_find?_iff path).1 (by rw [found]; rfl) with rfl | ⟨r, stored, before⟩
  · cases listed
  · obtain ⟨symbol, source, step⟩ := List.mem_filterMap.1 (before.subset listed)
    cases symbol with
    | word word =>
        obtain rfl : (word : Int) = id := Step.word.inj (Option.some.inj step)
        exact (h.named (List.mem_of_mem_filter stored)).source _ source
    | slot index =>
        obtain ⟨labels, -, other⟩ := Option.map_eq_some_iff.1 step
        cases other

/-! ### Applications -/

/-- Renames the numbers in the graph. The chart has none but those of the labels. -/
def Forest.rename (f : Nat → Nat) (x : Forest) : Forest := { x with graph := x.graph.rename f }

def SpanProgress.rename (f : Nat → Nat) (p : SpanProgress) : SpanProgress :=
  { p with forest := p.forest.rename f }

def UnaryProgress.rename (f : Nat → Nat) (p : UnaryProgress) : UnaryProgress :=
  { p with span := p.span.rename f }

def Application.rename (f : Nat → Nat) (a : Application) : Application :=
  { a with rule := a.rule.rename f }

theorem Forest.rename_start (sentence : List WordId) :
    Forest.mk { Graph.empty with words := sentence.map (renameId f) } .empty =
      (Forest.mk { Graph.empty with words := sentence } .empty).rename f := by
  simp [rename, Graph.rename, Graph.empty]

/-- What an application puts into a chart, and what its probability comes of, stays. -/
structure Application.Steady (f : Nat → Nat) (a : Application) : Prop where
  head : a.rule.head.rename f = a.rule.head
  features : a.rule.features.rename f = a.rule.features

theorem Forest.findOrAdd_rename {labels : Labels} (same : labels.rename f = labels) (x : Forest)
    (span : Span) : (x.rename f).findOrAdd span labels =
      ((x.findOrAdd span labels).1, (x.findOrAdd span labels).2.1,
        (x.findOrAdd span labels).2.2.rename f) := by
  have source : renameId f labels.source = labels.source := congrArg Labels.source same
  have same_chart : (x.rename f).chart = x.chart := rfl
  rw [findOrAdd, findOrAdd, same_chart]
  cases x.chart.find? span labels with
  | some id => rfl
  | none =>
      dsimp only [rename]
      rw [Graph.rename_pushNode, source, Graph.size_nodes_rename]

theorem SpanProgress.apply_rename {a : Application} (steady : a.Steady f) (span : Span)
    (p : SpanProgress) : (p.rename f).apply span (a.rename f) = (p.apply span a).rename f := by
  have edge : ∀ head, (a.rename f).edge head = (a.edge head).rename f := by
    intro head
    simp only [Application.edge, Application.rename, Rule.rename, EdgeRecord.rename,
      steady.features]
  have head : (a.rename f).rule.head = a.rule.head := steady.head
  rw [apply, apply, head, rename, Forest.findOrAdd_rename steady.head]
  dsimp only [rename, Forest.rename]
  rw [edge, Graph.rename_pushEdge]

theorem SpanProgress.foldl_apply_rename (span : Span) {as : List Application}
    (steady : ∀ a ∈ as, a.Steady f) (p : SpanProgress) :
    (as.map (.rename f)).foldl (apply span) (p.rename f) =
      (as.foldl (apply span) p).rename f := by
  induction as generalizing p with
  | nil => rfl
  | cons a as ih =>
      obtain ⟨first, later⟩ := List.forall_mem_cons.1 steady
      rw [List.map_cons, List.foldl_cons, List.foldl_cons, apply_rename first, ih later]

/-- An application of a rule that the vocabulary names stays as it is. -/
theorem Application.rename_eq {a : Application} (named : a.rule.Named v) (fixed : v.FixedBy f) :
    a.rename f = a := by
  rw [rename, named.rename_eq fixed]

theorem Application.steady_of_named {a : Application} (named : a.rule.Named v)
    (fixed : v.FixedBy f) : a.Steady f :=
  ⟨named.head.rename_eq fixed, Features.rename_eq fixed named.features⟩

/-! ### Unary rules -/

namespace UnaryProgress

variable {grammars : List Grammar} (fixed : v.FixedBy f)

include fixed

theorem apply_rename {g : Grammar} (named : ∀ r ∈ g.unaries, r.Named v) (span : Span)
    (place : Nat) (p : UnaryProgress) (step : UnaryStep) :
    (p.rename f).apply span place g step = (p.apply span place g step).rename f := by
  rw [apply, apply]
  change (if (place, step.rule) ∈ p.tried then _ else _) = _
  split
  · rfl
  · dsimp only [rename, SpanProgress.rename, Forest.rename]
    cases found : g.unaries[step.rule]? with
    | none => rfl
    | some rule =>
        cases p.span.forest.chart.find? span step.tail with
        | none => rfl
        | some tail =>
            have known := named rule (List.mem_of_getElem? found)
            have applied := SpanProgress.apply_rename
              (Application.steady_of_named (a := ⟨rule, [tail], g.keepSourceText⟩) known fixed)
              span p.span
            rw [Application.rename_eq (a := ⟨rule, [tail], g.keepSourceText⟩) known fixed]
              at applied
            dsimp only
            split
            · rfl
            · rw [Graph.size_nodes_rename]
              exact congrArg (UnaryProgress.mk · _ _) applied

theorem applyClosures_rename (named : ∀ g ∈ grammars, ∀ r ∈ g.unaries, r.Named v) (span : Span)
    (p : UnaryProgress) (labels : Labels) : (p.rename f).applyClosures span grammars labels =
      (p.applyClosures span grammars labels).rename f := by
  have steps : ∀ g ∈ grammars, ∀ place (steps : List UnaryStep) (p : UnaryProgress),
      steps.foldl (apply span place g) (p.rename f) =
        (steps.foldl (apply span place g) p).rename f := by
    intro g listed place steps
    induction steps with
    | nil => exact fun _ => rfl
    | cons step steps ih =>
        intro p
        rw [List.foldl_cons, List.foldl_cons, apply_rename fixed (named g listed), ih]
  have placed : ∀ x ∈ grammars.zipIdx, x.1 ∈ grammars := fun x listed =>
    List.mem_of_getElem? (List.mem_zipIdx_iff_getElem?.1 listed)
  unfold applyClosures
  generalize grammars.zipIdx = indexed at placed
  induction indexed generalizing p with
  | nil => rfl
  | cons x indexed ih =>
      obtain ⟨first, later⟩ := List.forall_mem_cons.1 placed
      obtain ⟨g, place⟩ := x
      rw [List.foldl_cons, List.foldl_cons]
      dsimp only
      rw [steps g first, ih _ later]

theorem run_rename (named : ∀ g ∈ grammars, ∀ r ∈ g.unaries, r.Named v) (span : Span)
    (fuel place : Nat) (p : UnaryProgress) :
    run span grammars fuel place (p.rename f) = (run span grammars fuel place p).rename f := by
  induction fuel generalizing place p with
  | zero => rfl
  | succ fuel ih =>
      have same_fresh : (p.rename f).span.fresh = p.span.fresh := rfl
      rw [run, run, same_fresh]
      cases p.span.fresh[place]? with
      | none => rfl
      | some labels =>
          dsimp only
          rw [applyClosures_rename fixed named, ih]

end UnaryProgress

theorem SpanProgress.applyUnaries_rename {grammars : List Grammar} (fixed : v.FixedBy f)
    (named : ∀ g ∈ grammars, ∀ r ∈ g.unaries, r.Named v) (span : Span) (p : SpanProgress) :
    (p.rename f).applyUnaries span grammars = (p.applyUnaries span grammars).rename f :=
  congrArg UnaryProgress.span (UnaryProgress.run_rename fixed named span _ 0 ⟨p, [], []⟩)

/-! ### Whole sentences -/

theorem Parser.tryRoot_rename (p : Parser) (x : Forest) :
    p.tryRoot (x.rename f) = p.tryRoot x := by
  have words : (x.rename f).graph.words.length = x.graph.words.length := List.length_map _
  rw [tryRoot, tryRoot, words]
  rfl

namespace Parser.LoadedIn

variable {p : Parser} {tables : List RuleTable} (h : p.LoadedIn tables v) (fixed : v.FixedBy f)

include h

theorem unaries_named {g : Grammar} (listed : g ∈ p.grammars) {r : Rule} (unary : r ∈ g.unaries) :
    r.Named v := by
  rw [h.grammars] at listed
  obtain ⟨t, table, rfl⟩ := List.mem_map.1 listed
  exact (h.read t table).named (List.mem_of_mem_filter unary)

theorem matching_named {sentence : List WordId} {span : Span}
    (known : span ∈ Span.upTo sentence.length) {chart : Chart} {a : Application}
    (found : a ∈ p.matching chart span.start
      ((sentence.drop span.start).take (span.stop - span.start))) : a.rule.Named v := by
  rw [(h.loadedFrom.matching_perm known chart).mem_iff] at found
  obtain ⟨t, table, -, r, stored, -, -, -, rfl⟩ := LoadedFrom.mem_ruleApplications.1 found
  exact (h.read t table).named stored

include fixed

theorem matching_rename (chart : Chart) (start : Nat) (words : List WordId) :
    p.matching chart start (words.map (renameId f)) = p.matching chart start words := by
  refine List.flatMap_congr fun g listed => congrArg _ ?_
  rw [h.grammars] at listed
  obtain ⟨t, table, rfl⟩ := List.mem_map.1 listed
  exact Grammar.matching_rename (h.read t table).wordsIn fixed chart start words

variable (unknown : p.UnknownNamed v)

omit h in
include unknown in
theorem unknownRule_rename (keeps : p.deleteUnknown = false) (word : WordId) :
    (p.unknownRule word).rename f = p.unknownRule (renameId f word) := by
  have labels : p.unknownLabels.rename f = p.unknownLabels := by
    rw [unknownLabels, Labels.uniform, Labels.rename, List.map_replicate,
      fixed _ (.inl (unknown keeps))]
  rw [unknownRule, Rule.rename_passThrough, labels, unknownRule]

include unknown

/-- On a span of the renamed sentence the same is applied, renamed, and this leaves the heads and
features as they are. -/
theorem found_rename {sentence : List WordId} {span : Span}
    (known : span ∈ Span.upTo sentence.length) (chart : Chart) :
    p.found (sentence.map (renameId f)) chart span =
        (p.found sentence chart span).map (.rename f) ∧
      ∀ a ∈ p.found sentence chart span, a.Steady f := by
  have named : ∀ a ∈ p.matching chart span.start
      ((sentence.drop span.start).take (span.stop - span.start)), a.rule.Named v :=
    fun a found => h.matching_named known found
  unfold found applications
  rw [← List.map_drop, ← List.map_take, h.matching_rename fixed]
  generalize (sentence.drop span.start).take (span.stop - span.start) = words at named ⊢
  have byRule : (p.matching chart span.start words).map (.rename f) =
      p.matching chart span.start words :=
    map_eq_self fun a found => Application.rename_eq (named a found) fixed
  have steady : ∀ a ∈ p.matching chart span.start words, a.Steady f :=
    fun a found => Application.steady_of_named (named a found) fixed
  cases matched : p.matching chart span.start words with
  | cons a more =>
      rw [matched] at byRule steady
      exact ⟨byRule.symm, steady⟩
  | nil =>
      have none_left : ∀ a ∈ ([] : List Application), a.Steady f := by simp
      rcases words with _ | ⟨word, _ | ⟨word', words⟩⟩
      · exact ⟨rfl, none_left⟩
      · cases keeps : p.deleteUnknown with
        | true => exact ⟨rfl, none_left⟩
        | false =>
            have passed := unknownRule_rename fixed unknown keeps word
            refine ⟨?_, fun a listed => ?_⟩
            · change _ = [Application.rename f _]
              rw [Application.rename, passed]
              rfl
            · obtain rfl := List.mem_singleton.1 listed
              exact ⟨congrArg Rule.head passed, rfl⟩
      · exact ⟨rfl, none_left⟩

theorem fillSpan_rename {sentence : List WordId} {span : Span}
    (known : span ∈ Span.upTo sentence.length) (x : Forest) :
    p.fillSpan (sentence.map (renameId f)) (x.rename f) span =
      (p.fillSpan sentence x span).rename f := by
  obtain ⟨found, steady⟩ := h.found_rename fixed unknown known x.chart
  have chart : (x.rename f).chart = x.chart := rfl
  rw [fillSpan_eq, fillSpan_eq, matched, matched, chart, found]
  have matches_eq := SpanProgress.foldl_apply_rename span steady ⟨x, []⟩
  have unaries := SpanProgress.applyUnaries_rename fixed
    (fun g listed r unary => h.unaries_named listed unary) span (p.matched sentence x span)
  rw [matched] at unaries
  exact congrArg SpanProgress.forest ((congrArg (·.applyUnaries span p.grammars) matches_eq).trans
    unaries)

/-- The forest of a sentence whose words are renamed is the forest of the sentence, renamed. -/
theorem parse_rename (sentence : List WordId) :
    p.parse (sentence.map (renameId f)) = (p.parse sentence).rename f := by
  have fill : ∀ spans ⊆ Span.upTo sentence.length, ∀ x : Forest,
      spans.foldl (p.fillSpan (sentence.map (renameId f))) (x.rename f) =
        (spans.foldl (p.fillSpan sentence) x).rename f := by
    intro spans
    induction spans with
    | nil => exact fun _ _ => rfl
    | cons span spans ih =>
        intro known x
        rw [List.cons_subset] at known
        rw [List.foldl_cons, List.foldl_cons, h.fillSpan_rename fixed unknown known.1, ih known.2]
  rw [parse, parse, List.length_map, Forest.rename_start]
  exact fill _ (List.Subset.refl _) ⟨{ Graph.empty with words := sentence }, .empty⟩

omit unknown in
theorem checkUnknown_rename (chart : Chart) (start : Nat) (words : List WordId) :
    p.checkUnknown chart start (words.map (renameId f)) = p.checkUnknown chart start words := by
  rcases words with _ | ⟨word, _ | ⟨word', words⟩⟩
  · rfl
  · have matching := h.matching_rename fixed chart start [word]
    have room : discard (p.tryUnknownRule (renameId f word)) = discard (p.tryUnknownRule word) := by
      rw [tryUnknownRule, tryUnknownRule]
      cases p.tryUnknownLabels with
      | error fault => rfl
      | ok labels =>
          change discard (Rule.tryPassThrough _ labels) = discard (Rule.tryPassThrough _ labels)
          rw [Rule.tryPassThrough, Rule.tryPassThrough]
          cases reserve 24 labels.targets.length <;> rfl
    rw [List.map_cons, List.map_nil] at matching ⊢
    rw [checkUnknown, checkUnknown, matching, room]
  · rfl

theorem buildSpan_rename {sentence : List WordId} {span : Span}
    (known : span ∈ Span.upTo sentence.length) (x : Forest) :
    p.buildSpan (sentence.map (renameId f)) (x.rename f) span =
      (p.buildSpan sentence x span).map (.rename f) := by
  have chart : (x.rename f).chart = x.chart := rfl
  rw [buildSpan, buildSpan, ← List.map_drop, ← List.map_take, h.checkUnknown_rename fixed,
    h.fillSpan_rename fixed unknown known, chart]
  cases p.checkUnknown x.chart span.start
    ((sentence.drop span.start).take (span.stop - span.start)) <;> rfl

theorem build_rename (sentence : List WordId) :
    p.build (sentence.map (renameId f)) = (p.build sentence).map (.rename f) := by
  have fill : ∀ spans ⊆ Span.upTo sentence.length, ∀ x : Forest,
      spans.foldlM (p.buildSpan (sentence.map (renameId f))) (x.rename f) =
        (spans.foldlM (p.buildSpan sentence) x).map (.rename f) := by
    intro spans
    induction spans with
    | nil => exact fun _ _ => rfl
    | cons span spans ih =>
        intro known x
        rw [List.cons_subset] at known
        rw [List.foldlM_cons, List.foldlM_cons, h.buildSpan_rename fixed unknown known.1]
        cases p.buildSpan sentence x span with
        | error fault => rfl
        | ok y => exact ih known.2 y
  rw [build, build, List.length_map, Forest.rename_start,
    fill _ (List.Subset.refl _) ⟨{ Graph.empty with words := sentence }, .empty⟩]
  cases (Span.upTo sentence.length).foldlM (p.buildSpan sentence)
    ⟨{ Graph.empty with words := sentence }, .empty⟩ with
  | error fault => rfl
  | ok x =>
      cases sentence with
      | nil => rfl
      | cons word words =>
          change (discard (p.tryRoot (x.rename f)) >>= fun _ => _) =
            Except.map _ (discard (p.tryRoot x) >>= fun _ => _)
          rw [p.tryRoot_rename]
          cases p.tryRoot x <;> rfl

end Parser.LoadedIn

end PackedForest
