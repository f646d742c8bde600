import PackedForest.Parser.Settings
import PackedForest.Proofs.Parser.Rearranging

/-!
# Settings that let more through

A wider span limit lets a grammar match more spans, and a parser that passes unknown words through
has nodes for them. Nothing is lost that way. What the walks find depends on the nodes of narrower
spans, and with more of these they find the same and more (`Match.through_part`).

The words that are passed through are no exception, though they are those which no rule matches. A
rule for a single word has no gaps, so no node can make it match, and a limit lets single words
through unless it is zero. So a limit of zero has to stay (`Grammar.Relaxed`): by a wider one a word
may come to be matched, and it is not passed through any more.
-/

namespace PackedForest

open Relation (ReflTransGen)

/-- On the narrower pieces of a span the second chart has a node for each node of the first. -/
def Chart.PartBelow (R : NodeId → NodeId → Prop) (span : Span) (chart chart' : Chart) : Prop :=
  ∀ piece : Span, piece.Within span → piece ≠ span → ∀ labels a,
    chart.find? piece labels = some a → ∃ b, chart'.find? piece labels = some b ∧ R a b

namespace Match

variable {R : NodeId → NodeId → Prop} {chart chart' : Chart} {start stop : Nat}

/-- With more nodes a walk finds the same matches, in their order, and others between them. -/
theorem through_part (more : Chart.PartBelow R ⟨start, stop⟩ chart chart') {t : Trie} {pos : Nat}
    {words : List WordId} (first : start ≤ pos) (last : pos + words.length = stop) :
    List.SublistForall₂ (Match.Alike R) (through chart start t pos words)
      (through chart' start t pos words) := by
  induction size : words.length using Nat.strong_induction_on generalizing t pos words with
  | _ size ih =>
      subst size
      cases words with
      | nil =>
          rw [through, through, List.sublistForall₂_map_left_iff,
            List.sublistForall₂_map_right_iff]
          exact List.sublistForall₂_iff.2 ⟨_, List.forall₂_same.2 fun r _ => ⟨rfl, .nil⟩, .refl _⟩
      | cons word words =>
          rw [List.length_cons] at last
          rw [through, through]
          apply sublistForall₂_append
          · cases t.child? (.word word) with
            | none => exact .nil
            | some child =>
                exact @ih _ (Nat.lt_succ_self _) child (pos + 1) words (by omega) (by omega) rfl
          · refine sublistForall₂_flatMap_same fun branch _ =>
              sublistForall₂_flatMap_same fun wide narrow => ?_
            obtain ⟨inside, proper⟩ := piece_within first (List.mem_range.1 narrow)
            rw [last] at inside proper
            have bound := inside.2
            dsimp only at bound
            cases there : chart.find? ⟨pos, pos + wide + 1⟩ branch.1 with
            | none => exact .nil
            | some tail =>
                obtain ⟨tail', here, related⟩ := more _ inside proper branch.1 tail there
                rw [here]
                have rest := @ih _ length_drop_lt branch.2 (pos + wide + 1) (words.drop wide)
                  (by omega) (by rw [List.length_drop]; omega) rfl
                dsimp only
                rw [List.sublistForall₂_map_left_iff, List.sublistForall₂_map_right_iff]
                exact sublistForall₂_imp (fun m m' same => ⟨same.rule, .cons related same.tails⟩)
                  rest

/-- A single word has no place for a gap, so what matches it does not depend on nodes. -/
theorem through_singleton (chart chart' : Chart) (start : Nat) (t : Trie) (word : WordId) :
    through chart start t start [word] = through chart' start t start [word] := by
  rw [through, through]
  congr 1
  · cases t.child? (.word word) with
    | none => rfl
    | some child => simp only [through]
  · simp

end Match

/-- The grammars are the same, but the second may have a wider span limit. One that matches nothing
goes on matching nothing. -/
structure Grammar.Relaxed (g g' : Grammar) : Prop where
  trie : g.trie = g'.trie
  unaries : g.unaries = g'.unaries
  keepSourceText : g.keepSourceText = g'.keepSourceText
  wider : g.spanLimit ≤ g'.spanLimit
  idle : g.spanLimit = 0 → g'.spanLimit = 0

/-- The parsers are the same, but the second may have wider span limits, and it may pass unknown
words through that the first deletes. -/
structure Parser.Relaxed (p p' : Parser) : Prop where
  grammars : List.Forall₂ Grammar.Relaxed p.grammars p'.grammars
  unknownLabels : p.unknownLabels = p'.unknownLabels
  keepSourceText : p.keepSourceText = p'.keepSourceText
  deleteUnknown : p'.deleteUnknown = true → p.deleteUnknown = true

namespace Grammar.Relaxed

variable {R : NodeId → NodeId → Prop} {chart chart' : Chart} {start stop : Nat} {g g' : Grammar}
variable (h : g.Relaxed g')

include h

theorem matching_part (more : Chart.PartBelow R ⟨start, stop⟩ chart chart') {words : List WordId}
    (last : start + words.length = stop) :
    List.SublistForall₂ (Match.Alike R) (g.matching chart start words)
      (g'.matching chart' start words) := by
  unfold matching
  split
  · next allowed =>
      rw [if_pos (Nat.le_trans allowed h.wider), ← h.trie]
      exact Match.through_part more (Nat.le_refl _) last
  · exact .nil

theorem matching_singleton (chart chart' : Chart) (start : Nat) (word : WordId) :
    g.matching chart start [word] = g'.matching chart' start [word] := by
  have same : 1 ≤ g.spanLimit ↔ 1 ≤ g'.spanLimit := by
    have wider := h.wider
    have idle := h.idle
    omega
  unfold matching
  simp only [List.length_singleton, same, ← h.trie,
    Match.through_singleton chart chart' start g.trie word]

end Grammar.Relaxed

/-- No other words are passed through than single ones. -/
theorem Parser.applications_eq_matching (p : Parser) (chart : Chart) (start : Nat)
    {words : List WordId} (several : words.length ≠ 1) :
    p.applications chart start words = p.matching chart start words := by
  unfold applications
  split
  · exact absurd rfl several
  · rfl

namespace Parser.Relaxed

variable {p p' : Parser} (h : p.Relaxed p')

include h

section Applications

variable {R : NodeId → NodeId → Prop} {chart chart' : Chart} {start stop : Nat}

theorem matching_part (more : Chart.PartBelow R ⟨start, stop⟩ chart chart') {words : List WordId}
    (last : start + words.length = stop) :
    List.SublistForall₂ (Application.Alike R) (p.matching chart start words)
      (p'.matching chart' start words) := by
  refine sublistForall₂_flatMap h.grammars fun g g' relaxed => ?_
  rw [List.sublistForall₂_map_left_iff, List.sublistForall₂_map_right_iff]
  exact sublistForall₂_imp (fun m m' same => ⟨same.rule, same.tails, relaxed.keepSourceText⟩)
    (relaxed.matching_part more last)

theorem matching_singleton (chart chart' : Chart) (start : Nat) (word : WordId) :
    p.matching chart start [word] = p'.matching chart' start [word] := by
  have same : p.grammars.map (fun g => (g.matching chart start [word]).map fun m =>
      (⟨m.rule, m.tails, g.keepSourceText⟩ : Application)) =
      p'.grammars.map fun g => (g.matching chart' start [word]).map fun m =>
        ⟨m.rule, m.tails, g.keepSourceText⟩ := by
    refine map_eq_map_of_forall₂ (h.grammars.imp fun g g' relaxed => ?_)
    rw [relaxed.matching_singleton chart chart', relaxed.keepSourceText]
  rw [matching, matching, List.flatMap_def, List.flatMap_def, same]

/-- What is applied over a span is applied with more nodes too. A single word that is passed through
is matched by neither parser. -/
theorem applications_part (more : Chart.PartBelow R ⟨start, stop⟩ chart chart')
    {words : List WordId} (last : start + words.length = stop) :
    List.SublistForall₂ (Application.Alike R) (p.applications chart start words)
      (p'.applications chart' start words) := by
  have part := h.matching_part more last
  by_cases several : words.length ≠ 1
  · rwa [applications_eq_matching p chart start several,
      applications_eq_matching p' chart' start several]
  · obtain ⟨word, rfl⟩ := List.length_eq_one_iff.1 (not_not.1 several)
    have same := h.matching_singleton chart chart' start word
    unfold applications
    generalize p.matching chart start [word] = found, p'.matching chart' start [word] = found'
      at part same ⊢
    subst same
    -- The same rules match the word, or none does, and then it is passed through or deleted.
    cases found with
    | cons first rest => exact part
    | nil =>
        dsimp only
        split
        · exact .nil
        · next passes =>
            rw [if_neg (mt h.deleteUnknown passes), unknownRule, unknownRule, h.unknownLabels,
              h.keepSourceText]
            exact .cons ⟨rfl, .nil, rfl⟩ .nil

end Applications

theorem rewrites {below above : Labels} (rewrite : Rewrites p.grammars below above) :
    Rewrites p'.grammars below above := by
  obtain ⟨g, registered, r, stored, tailed, head⟩ := rewrite
  obtain ⟨g', registered', relaxed⟩ := exists_of_forall₂_left h.grammars registered
  exact ⟨g', registered', r, relaxed.unaries ▸ stored, tailed, head⟩

variable {f g : Forest} {span : Span} {sentence : List WordId}

/-- What walks find over a span is found in another chart, too, that has all keys on narrower
spans. -/
theorem found_part (wf : f.WellFormed) (wf' : g.WellFormed)
    (known : span ∈ Span.upTo sentence.length)
    (below : ∀ piece : Span, piece.Within span → piece ≠ span → ∀ labels,
      (f.chart.find? piece labels).isSome → (g.chart.find? piece labels).isSome) :
    List.SublistForall₂ (Application.Alike (Forest.SameKey f g)) (p.found sentence f.chart span)
      (p'.found sentence g.chart span) := by
  have more : Chart.PartBelow (Forest.SameKey f g) span f.chart g.chart := by
    intro piece inside other labels a there
    obtain ⟨b, here⟩ := Option.isSome_iff_exists.1
      (below piece inside other labels (Option.isSome_of_eq_some there))
    exact ⟨b, here, (wf.keyOf?_eq_some_iff.2 there).trans (wf'.keyOf?_eq_some_iff.2 here).symm⟩
  exact h.applications_part more (start_add_length_words known)

variable (sentence)

/-- The forest has all keys. -/
theorem keys (span : Span) (labels : Labels)
    (there : ((p.parse sentence).chart.find? span labels).isSome) :
    ((p'.parse sentence).chart.find? span labels).isSome := by
  obtain ⟨fills, filled⟩ := p.parse_filled sentence
  obtain ⟨fills', filled'⟩ := p'.parse_filled sentence
  induction width : span.stop - span.start using Nat.strong_induction_on
    generalizing span labels with
  | _ width ih =>
      subst width
      have known := filled.span_of_found there
      have nonempty := (Span.mem_upTo.1 known).1
      -- Walks over a span look at narrower spans only, which have all keys by induction.
      have part := h.found_part filled.wellFormed filled'.wellFormed known
        fun piece inside other labels there =>
          ih _ (inside.narrower other nonempty) piece labels there rfl
      obtain ⟨found', alike, kept⟩ := List.sublistForall₂_iff.1 part
      obtain ⟨x, member, rfl⟩ := filled.exists_fill known
      obtain ⟨x', member', here⟩ := filled'.exists_fill known
      obtain ⟨a, found, path⟩ := ((filled.sound x member).isSome_iff labels).1 there
      rw [(filled.sound x member).found] at found
      obtain ⟨b, listed, same⟩ := exists_of_forall₂_left alike found
      rw [← here, (filled'.sound x' member').isSome_iff, (filled'.sound x' member').found, here]
      exact ⟨b, kept.subset listed, same.rule ▸ ReflTransGen.mono (fun _ _ => h.rewrites) _ _ path⟩

/-- The forest has all edges that are not unary, at least as often and in the same order. -/
theorem keyedEdges_sublist :
    ((p.parse sentence).keyedEdges false).Sublist ((p'.parse sentence).keyedEdges false) := by
  obtain ⟨fills, filled⟩ := p.parse_filled sentence
  obtain ⟨fills', filled'⟩ := p'.parse_filled sentence
  have edges : (((p.parse sentence).keyedEdges false).map some).Sublist
      (((p'.parse sentence).keyedEdges false).map some) := by
    rw [filled.keyedEdges_of_found, filled'.keyedEdges_of_found]
    refine sublist_of_sublistForall₂_eq (sublistForall₂_flatMap_same fun span known => ?_)
    obtain ⟨x, member, rfl⟩ := filled.exists_fill known
    have part := h.found_part filled.wellFormed filled'.wellFormed known
      fun piece _ _ => h.keys sentence piece
    obtain ⟨found', alike, kept⟩ := List.sublistForall₂_iff.1 part
    rw [List.sublistForall₂_map_left_iff, List.sublistForall₂_map_right_iff]
    refine List.sublistForall₂_iff.2 ⟨found', (forall₂_mem alike).imp ?_, kept⟩
    rintro a b ⟨found, -, same⟩
    rw [← (filled.sound x member).found] at found
    obtain ⟨head, there, -⟩ := filled.edge_of_found member found
    exact same.keyed_edgeIn?_of_found filled.wellFormed filled'.wellFormed there
      (h.keys sentence x.span _ (Option.isSome_of_eq_some there))
  have unwrapped := edges.filterMap id
  simpa using unwrapped

end Parser.Relaxed

namespace Parser

/-- Wider limits for all grammars, which are not zero. -/
theorem relaxed_of_setSpanLimits {p q q' : Parser} {limits limits' : List Nat}
    (wider : List.Forall₂ (fun l l' => 1 ≤ l ∧ l ≤ l') limits limits')
    (first : p.setSpanLimits limits = .ok q) (second : p.setSpanLimits limits' = .ok q') :
    q.Relaxed q' := by
  have each : ∀ gs : List Grammar, List.Forall₂ Grammar.Relaxed
      (gs.zipWith (fun g limit => { g with spanLimit := limit }) limits)
      (gs.zipWith (fun g limit => { g with spanLimit := limit }) limits') := by
    clear first second
    induction wider with
    | nil => simp
    | @cons l l' _ _ here _ ih =>
        intro gs
        cases gs with
        | nil => exact .nil
        | cons g gs => exact .cons ⟨rfl, rfl, rfl, here.2, fun zero =>
          absurd zero (Nat.ne_of_gt here.1)⟩ (ih gs)
  unfold setSpanLimits at first second
  split at first <;> cases first
  split at second <;> cases second
  exact ⟨each p.grammars, rfl, rfl, id⟩

/-- To pass unknown words through instead of deleting them. -/
theorem relaxed_of_deleteUnknown (p : Parser) :
    Relaxed { p with deleteUnknown := true } { p with deleteUnknown := false } :=
  ⟨List.forall₂_same.2 fun _ _ => ⟨rfl, rfl, rfl, Nat.le_refl _, id⟩, rfl, rfl, fun _ => rfl⟩

/-- With wider span limits, or with unknown words passed through that were deleted, the forest of a
sentence has all keys that it had, and all edges between them that are not unary, each at least as
often. -/
theorem parse_relaxed {p p' : Parser} (h : p.Relaxed p') (sentence : List WordId) :
    (∀ span labels, ((p.parse sentence).chart.find? span labels).isSome →
      ((p'.parse sentence).chart.find? span labels).isSome) ∧
    ((p.parse sentence).keyedEdges false).Sublist ((p'.parse sentence).keyedEdges false) :=
  ⟨h.keys sentence, h.keyedEdges_sublist sentence⟩

/-- A limit of one leaves the four edges of two nouns, and a limit of two has the pair, too. The
noun keeps its edges whether or not an unknown word beside it is passed through. -/
theorem parse_relaxed_nouns : ∃ narrow wide, nounParser.setSpanLimits [1] = .ok narrow ∧
    nounParser.setSpanLimits [2] = .ok wide ∧ narrow.Relaxed wide ∧
    ((narrow.parse [1, 1]).keyedEdges false).length = 4 ∧
    ((narrow.parse [1, 1]).keyedEdges false).Sublist ((wide.parse [1, 1]).keyedEdges false) ∧
    ((wide.parse [1, 1]).keyedEdges false).length = 5 ∧
    Relaxed { nounParser with deleteUnknown := true } nounParser ∧
    ((Parser.parse { nounParser with deleteUnknown := true } [1, 9]).keyedEdges false).Sublist
      ((nounParser.parse [1, 9]).keyedEdges false) := by
  have wider : List.Forall₂ (fun l l' : Nat => 1 ≤ l ∧ l ≤ l') [1] [2] := .cons (by decide) .nil
  have relaxed :=
    relaxed_of_setSpanLimits wider (rfl : nounParser.setSpanLimits [1] = .ok _) rfl
  have passing := relaxed_of_deleteUnknown nounParser
  exact ⟨_, _, rfl, rfl, relaxed, by decide +kernel, (parse_relaxed relaxed [1, 1]).2,
    by decide +kernel, passing, (parse_relaxed passing [1, 9]).2⟩

-- A limit of zero lets the noun through as an unknown word, and with a wider one it is a noun.
example : (nounParser.setSpanLimits [0]).toOption.map (fun p =>
    ((p.parse [1]).chart.find? ⟨0, 1⟩ p.unknownLabels).isSome) = some true ∧
    ((nounParser.parse [1]).chart.find? ⟨0, 1⟩ nounParser.unknownLabels).isSome = false := by
  decide +kernel

end Parser

end PackedForest
