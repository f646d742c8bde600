import PackedForest.Proofs.Forest.Renumbering
import PackedForest.Proofs.Parser.Locality
import PackedForest.Proofs.Parser.Packing

/-!
# Forests do not depend on the order of rules

The order of the rules decides how the tries are laid out, in which order walks find matches, how
nodes and edges are numbered and which unary rules the worklist takes up first. What walks find over
a span stays the same up to order, though, and so does what unary rules make of a tuple:
`Parser.Rearranged` says so of two parsers. By induction on the width of spans their charts have the
same keys (`Rearranged.sameKeysOn`), and then the forests have the same edges.

Parsers with the same rules under the same settings are of this kind, however the rules are put into
tables (`Parser.parse_rearranged`). Unary edges are an exception if unary rules lead from a tuple
back to itself: then the order decides which of them is held back.
-/

namespace PackedForest

open Relation (ReflTransGen TransGen)

/-- The edges of a forest with their keys, either those that are unary or all others. -/
def Forest.keyedEdges (f : Forest) (unary : Bool) : List KeyedEdge :=
  (f.graph.edges.toList.filter fun e => f.graph.isUnary e == unary).map
    fun e => f.keyed e.unnumbered

namespace Parser

/-- The edges of all unary rules that have their nodes on a span. -/
def rewriteEdges (p : Parser) (chart : Chart) (span : Span) : List EdgeRecord :=
  p.grammars.flatMap fun g => g.unaries.filterMap fun r =>
    (unaryUse? chart span g r).map fun u => u.application.edge u.head

section SameKeys

variable (p : Parser) {f g : Forest} {span : Span} (wf : f.WellFormed) (wf' : g.WellFormed)

include wf wf'

/-- Walks in two charts find the same rules, if the charts have the same keys on narrower spans. -/
theorem found_alike {sentence : List WordId} (known : span ∈ Span.upTo sentence.length)
    (below : ∀ piece : Span, piece.Within span → piece ≠ span → f.SameKeysOn g piece) :
    List.Forall₂ (Application.Alike (Forest.SameKey f g)) (p.found sentence f.chart span)
      (p.found sentence g.chart span) := by
  have charts : Chart.AlikeBelow (Forest.SameKey f g) 0 span f.chart g.chart := by
    intro piece inside other labels
    rw [Span.shift_zero]
    exact (below piece inside other).find?_rel wf wf' labels
  have alike := p.applications_alike charts (start_add_length_words known)
  rw [Nat.zero_add] at alike
  exact alike

theorem rewriteEdges_keyed (same : f.SameKeysOn g span) :
    (p.rewriteEdges f.chart span).map f.keyed = (p.rewriteEdges g.chart span).map g.keyed := by
  rw [rewriteEdges, rewriteEdges, List.map_flatMap, List.map_flatMap]
  refine List.flatMap_congr fun grammar _ => ?_
  rw [List.map_filterMap, List.map_filterMap]
  refine List.filterMap_congr fun r _ => ?_
  unfold unaryUse?
  cases UnaryRules.tail? r with
  | none => rfl
  | some labels =>
      have tails := same.find?_rel wf wf' labels
      have heads := same.find?_rel wf wf' r.head
      rw [Option.bind_some, Option.bind_some]
      generalize f.chart.find? span labels = tail?, g.chart.find? span labels = tail?' at tails ⊢
      generalize f.chart.find? span r.head = head?, g.chart.find? span r.head = head?' at heads ⊢
      cases tails with
      | none => rfl
      | @some tail tail' tails =>
          cases heads with
          | none => rfl
          | @some head head' heads =>
              have alike : Application.Alike (Forest.SameKey f g)
                  ⟨r, [tail], grammar.keepSourceText⟩ ⟨r, [tail'], grammar.keepSourceText⟩ :=
                ⟨rfl, .cons tails .nil, rfl⟩
              exact congrArg some (alike.edge heads).keyed_eq

end SameKeys

namespace Filled

variable {p : Parser} {sentence : List WordId} {fills : List Fill}

theorem keyedEdges_of_found (h : p.Filled sentence fills) :
    ((p.parse sentence).keyedEdges false).map some =
      (Span.upTo sentence.length).flatMap fun span =>
        (p.found sentence (p.parse sentence).chart span).map fun a =>
          (a.edgeIn? (p.parse sentence).chart span).map (p.parse sentence).keyed := by
  have edges := congrArg (List.map (Option.map (p.parse sentence).keyed)) h.edges_of_found
  rw [List.map_map, List.map_flatMap] at edges
  simp only [Forest.keyedEdges, beq_false, List.map_map, Function.comp_def, Option.map_some]
    at edges ⊢
  exact edges

theorem keyedEdges_of_rewrites (h : p.Filled sentence fills)
    (noncyclic : ∀ labels, ¬ TransGen (Rewrites p.grammars) labels labels) :
    ((p.parse sentence).keyedEdges true).Perm ((Span.upTo sentence.length).flatMap fun span =>
      (p.rewriteEdges (p.parse sentence).chart span).map (p.parse sentence).keyed) := by
  have edges := congrArg (List.map (p.parse sentence).keyed) h.edges_of_uses
  rw [List.map_map, List.map_flatMap] at edges
  simp only [Forest.keyedEdges, beq_true]
  refine (List.Perm.of_eq edges).trans ?_
  rw [← h.spans, List.flatMap_map]
  refine List.Perm.flatMap_left _ fun x member => List.Perm.map _ ?_
  refine ((h.uses_perm member noncyclic).map _).trans (.of_eq ?_)
  rw [rewriteEdges, List.map_flatMap]
  simp only [List.map_filterMap]

end Filled

/-- Parsers that find the same on a span, up to order, and that rewrite the same tuples. -/
structure Rearranged (p p' : Parser) : Prop where
  found : ∀ sentence chart, ∀ span : Span,
    (p.found sentence chart span).Perm (p'.found sentence chart span)
  rewrites : Rewrites p.grammars = Rewrites p'.grammars
  rewriteEdges : ∀ chart span, (p.rewriteEdges chart span).Perm (p'.rewriteEdges chart span)

namespace Rearranged

variable {p p' : Parser} (h : p.Rearranged p') (sentence : List WordId)

include h

/-- The forests have the same keys. -/
theorem sameKeysOn (span : Span) : (p.parse sentence).SameKeysOn (p'.parse sentence) span := by
  obtain ⟨fills, filled⟩ := p.parse_filled sentence
  obtain ⟨fills', filled'⟩ := p'.parse_filled sentence
  induction width : span.stop - span.start using Nat.strong_induction_on generalizing span with
  | _ width ih =>
      subst width
      intro labels
      by_cases known : span ∈ Span.upTo sentence.length
      · -- Walks over a span look at narrower spans only, where the keys are the same.
        have nonempty := (Span.mem_upTo.1 known).1
        have alike := p.found_alike filled.wellFormed filled'.wellFormed known
          fun piece inside other => ih _ (inside.narrower other nonempty) piece rfl
        have heads : ((p.found sentence (p.parse sentence).chart span).map (·.rule.head)).Perm
            ((p'.found sentence (p'.parse sentence).chart span).map (·.rule.head)) := by
          refine (List.Perm.of_eq ?_).trans ((h.found _ _ span).map _)
          exact map_eq_map_of_forall₂ (alike.imp fun a b same => congrArg Rule.head same.rule)
        have over_heads : ∀ found : List Application,
            (∃ a ∈ found, ReflTransGen (Rewrites p'.grammars) a.rule.head labels) ↔
              ∃ l ∈ found.map (·.rule.head), ReflTransGen (Rewrites p'.grammars) l labels := by
          simp
        obtain ⟨x, member, rfl⟩ := filled.exists_fill known
        obtain ⟨x', member', here⟩ := filled'.exists_fill known
        have here_iff := (filled.sound x member).isSome_iff labels
        have there_iff := (filled'.sound x' member').isSome_iff labels
        rw [(filled.sound x member).found, h.rewrites, over_heads] at here_iff
        rw [(filled'.sound x' member').found, here, over_heads] at there_iff
        rw [here_iff, there_iff]
        exact exists_congr fun l => and_congr_left fun _ => heads.mem_iff
      · have absent : ∀ {o : Option NodeId}, (o.isSome → span ∈ Span.upTo sentence.length) →
            ¬ o.isSome := fun there found => known (there found)
        exact iff_of_false (absent filled.span_of_found) (absent filled'.span_of_found)

/-- The forests have the same edges that are not unary, each as often. -/
theorem keyedEdges_perm :
    ((p.parse sentence).keyedEdges false).Perm ((p'.parse sentence).keyedEdges false) := by
  obtain ⟨fills, filled⟩ := p.parse_filled sentence
  obtain ⟨fills', filled'⟩ := p'.parse_filled sentence
  refine (List.map_perm_map_iff (Option.some_injective _)).1 ?_
  rw [filled.keyedEdges_of_found, filled'.keyedEdges_of_found]
  refine List.Perm.flatMap_left _ fun span known => ?_
  have alike := p.found_alike filled.wellFormed filled'.wellFormed known
    fun piece _ _ => h.sameKeysOn sentence piece
  refine (List.Perm.of_eq ?_).trans ((h.found sentence (p'.parse sentence).chart span).map _)
  exact map_eq_map_of_forall₂ (alike.imp fun a b same =>
    same.keyed_edgeIn? (h.sameKeysOn sentence span) filled.wellFormed filled'.wellFormed)

/-- Without a cycle of unary rules the forests have the same unary edges, too. -/
theorem keyedEdges_unary_perm
    (noncyclic : ∀ labels, ¬ TransGen (Rewrites p.grammars) labels labels) :
    ((p.parse sentence).keyedEdges true).Perm ((p'.parse sentence).keyedEdges true) := by
  obtain ⟨fills, filled⟩ := p.parse_filled sentence
  obtain ⟨fills', filled'⟩ := p'.parse_filled sentence
  refine (filled.keyedEdges_of_rewrites noncyclic).trans (.trans ?_
    (filled'.keyedEdges_of_rewrites (h.rewrites ▸ noncyclic)).symm)
  refine List.Perm.flatMap_left _ fun span _ => ?_
  rw [p.rewriteEdges_keyed filled.wellFormed filled'.wellFormed (h.sameKeysOn sentence span)]
  exact (h.rewriteEdges _ span).map _

end Rearranged

/-- A parser with the same settings, and with the grammars of some tables. -/
def withTables (p : Parser) (tables : List RuleTable) : Parser :=
  { p with grammars := tables.map RuleTable.grammar }

end Parser

/-- A rule, with the settings under which a table uses it. -/
structure RuleEntry where
  rule : Rule
  spanLimit : Nat
  keepSourceText : Bool

def RuleTable.entries (t : RuleTable) : List RuleEntry :=
  t.rules.map (⟨·, t.spanLimit, t.keepSourceText⟩)

namespace RuleEntry

/-- Whether there are walks along the path of the rule over so many words. -/
def walked (size : Nat) (x : RuleEntry) : Bool := size ≤ x.spanLimit && !x.rule.isUnary

def applications (chart : Chart) (start : Nat) (words : List WordId) (x : RuleEntry) :
    List Application :=
  (fillings chart start start words x.rule.path).map (⟨x.rule, ·, x.keepSourceText⟩)

/-- The edge of a unary rule between its nodes on a span, if both are there. -/
def rewriteEdge? (chart : Chart) (span : Span) (x : RuleEntry) : Option EdgeRecord :=
  ((UnaryRules.tail? x.rule).bind (chart.find? span)).bind fun tail =>
    (Application.mk x.rule [tail] x.keepSourceText).edgeIn? chart span

end RuleEntry

namespace Parser

variable (p : Parser) (tables : List RuleTable)

theorem matching_entries_perm (chart : Chart) (start : Nat) (words : List WordId) :
    ((p.withTables tables).matching chart start words).Perm
      (((tables.flatMap RuleTable.entries).filter (RuleEntry.walked words.length)).flatMap
        (RuleEntry.applications chart start words)) := by
  rw [matching, withTables, List.flatMap_map, List.filter_flatMap, List.flatMap_assoc]
  refine List.Perm.flatMap_left _ fun t _ =>
    (t.walk_perm chart start words).trans (.of_eq ?_)
  rw [RuleTable.entries, List.filter_map, List.flatMap_map]
  split
  · next narrow =>
      have kept : ∀ r, RuleEntry.walked words.length ⟨r, t.spanLimit, t.keepSourceText⟩ =
          !r.isUnary := fun r => by simp [RuleEntry.walked, narrow]
      simp only [Function.comp_def, kept]
      rfl
  · next wide =>
      rw [List.filter_eq_nil_iff.2 fun r _ => by simp [RuleEntry.walked, wide], List.flatMap_nil]

theorem rewriteEdges_entries (chart : Chart) (span : Span) :
    (p.withTables tables).rewriteEdges chart span =
      ((tables.flatMap RuleTable.entries).filter (·.rule.isUnary)).filterMap
        (RuleEntry.rewriteEdge? chart span) := by
  rw [rewriteEdges, withTables, List.flatMap_map, List.filter_flatMap, List.filterMap_flatMap]
  refine List.flatMap_congr fun t _ => ?_
  rw [RuleTable.entries, List.filter_map, List.filterMap_map]
  refine List.filterMap_congr fun r _ => ?_
  rw [Function.comp_apply, RuleEntry.rewriteEdge?, unaryUse?]
  cases (UnaryRules.tail? r).bind (chart.find? span) with
  | none => rfl
  | some tail =>
      rw [Option.bind_some, Application.edgeIn?]
      cases chart.find? span r.head <;> rfl

/-- The table for nouns with its unary rule in a table of its own, which comes first. -/
def nounTables : List RuleTable :=
  [⟨nounRules.drop 3, defaultSpanLimit, false⟩, ⟨nounRules.take 3, defaultSpanLimit, false⟩]

variable {tables} {tables' : List RuleTable}
variable (same : (tables.flatMap RuleTable.entries).Perm (tables'.flatMap RuleTable.entries))

include same

theorem found_rearranged (sentence : List WordId) (chart : Chart) (span : Span) :
    ((p.withTables tables).found sentence chart span).Perm
      ((p.withTables tables').found sentence chart span) := by
  unfold found
  generalize (sentence.drop span.start).take (span.stop - span.start) = words
  have matched : ((p.withTables tables).matching chart span.start words).Perm
      ((p.withTables tables').matching chart span.start words) :=
    (p.matching_entries_perm tables chart span.start words).trans
      (((same.filter _).flatMap_right _).trans
        (p.matching_entries_perm tables' chart span.start words).symm)
  unfold applications
  generalize (p.withTables tables).matching chart span.start words = found,
    (p.withTables tables').matching chart span.start words = found' at matched ⊢
  cases found with
  | nil =>
      -- A word is passed through by both parsers, or by neither.
      rw [← matched.nil_eq]
      exact .refl _
  | cons first rest =>
      cases found' with
      | nil => exact absurd matched.eq_nil (List.cons_ne_nil _ _)
      | cons first' rest' => exact matched

theorem rewrites_rearranged :
    Rewrites (p.withTables tables).grammars = Rewrites (p.withTables tables').grammars := by
  have over_entries : ∀ (tables : List RuleTable) (below above : Labels),
      Rewrites (p.withTables tables).grammars below above ↔
        ∃ x ∈ tables.flatMap RuleTable.entries, x.rule.isUnary = true ∧
          x.rule.slots[0]? = some below ∧ x.rule.head = above := by
    intro tables below above
    rw [withTables, RuleTable.rewrites_iff]
    simp [RuleTable.entries, and_assoc]
  funext below above
  rw [eq_iff_iff, over_entries, over_entries]
  exact exists_congr fun x => and_congr_left fun _ => same.mem_iff

/-- Tables with the same rules under the same settings make parsers that are the same, up to the
order in which they find things. -/
theorem withTables_rearranged : (p.withTables tables).Rearranged (p.withTables tables') where
  found := p.found_rearranged same
  rewrites := p.rewrites_rearranged same
  rewriteEdges chart span := by
    rw [rewriteEdges_entries, rewriteEdges_entries]
    exact (same.filter _).filterMap _

/-- Whatever the order of the rules in a table and of the tables, and whether rules share a table or
not, the forest of a sentence has the same keys and the same edges between them, each as often. For
unary edges this holds if no unary rules lead from a tuple back to itself. -/
theorem parse_rearranged (sentence : List WordId) :
    (∀ span, ((p.withTables tables).parse sentence).SameKeysOn
      ((p.withTables tables').parse sentence) span) ∧
    (((p.withTables tables).parse sentence).keyedEdges false).Perm
      (((p.withTables tables').parse sentence).keyedEdges false) ∧
    ((∀ labels, ¬ TransGen (UnaryOver tables) labels labels) →
      (((p.withTables tables).parse sentence).keyedEdges true).Perm
        (((p.withTables tables').parse sentence).keyedEdges true)) := by
  have rearranged := p.withTables_rearranged same
  refine ⟨rearranged.sameKeysOn sentence, rearranged.keyedEdges_perm sentence, ?_⟩
  intro noncyclic
  refine rearranged.keyedEdges_unary_perm sentence fun labels cycle => noncyclic labels ?_
  exact TransGen.mono (fun _ _ => RuleTable.rewrites_iff.1) _ _ cycle

omit same in
/-- On a pair of nouns the unary rule makes one edge, also from a table of its own. -/
theorem parse_rearranged_nouns :
    ([nounTable].flatMap RuleTable.entries).Perm (nounTables.flatMap RuleTable.entries) ∧
    (((nounParser.withTables nounTables).parse [1, 1]).keyedEdges true).length = 1 := by
  have same : ([nounTable].flatMap RuleTable.entries).Perm
      (nounTables.flatMap RuleTable.entries) := by
    have split : nounRules.Perm (nounRules.drop 3 ++ nounRules.take 3) :=
      (List.Perm.of_eq (List.take_append_drop 3 nounRules).symm).trans List.perm_append_comm
    simp only [List.flatMap_cons, List.flatMap_nil, List.append_nil, RuleTable.entries, nounTable,
      nounTables]
    rw [← List.map_append]
    exact split.map _
  obtain ⟨-, -, unary⟩ := parse_rearranged nounParser same [1, 1]
  refine ⟨same, (unary nounTable_noncyclic).length_eq.symm.trans ?_⟩
  decide +kernel

end Parser

end PackedForest
