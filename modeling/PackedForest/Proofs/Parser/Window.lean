import PackedForest.Proofs.Derivation.Moving
import PackedForest.Proofs.Forest.Entries
import PackedForest.Proofs.Parser.Acyclic
import PackedForest.Proofs.Parser.Locality

/-!
# Nodes do not depend on the words outside their spans

The nodes of a window have their twins in the forest of the whole sentence, with alike edges in the
same order. Two such graphs mirror each other, so that twins have as many derivations, alike in
pairs, and the same trees in the same order but for where they stand in the sentence
(`Parser.parse_window`).
-/

namespace PackedForest

variable {offset size : Nat}

/-- A window of a sentence has twins for its nodes and for the edges that build them. -/
theorem Forest.Local.mirrored {f g : Forest} (h : f.Local offset size g) :
    f.graph.Mirrored (Twins offset size f g) (Node.Moved offset size) g.graph where
  right_unique := Twins.right_unique h.whole
  left_unique := Twins.left_unique h.part
  node := by
    rintro a b ⟨span, labels, inside, there, here⟩
    obtain ⟨n, stored, -, span_eq, sym_eq⟩ := h.whole.node_of_find? there
    obtain ⟨n', stored', -, span_eq', sym_eq'⟩ := h.part.node_of_find? here
    refine ⟨n, n', stored, stored', sym_eq.trans sym_eq'.symm, ?_, ?_⟩
    · rw [span_eq, span_eq']
    · rw [span_eq']
      exact inside
  edges := by
    rintro a b ⟨span, labels, inside, there, here⟩
    have edges := @Local.edges _ _ _ _ h span labels inside
    rw [edgesUnder_of_find? there, edgesUnder_of_find? here, List.forall₂_map_left_iff,
      List.forall₂_map_right_iff] at edges
    exact edges

namespace Graph.Mirrored

variable {R : NodeId → NodeId → Prop} {g g' : Graph} {a b : NodeId}
variable (h : g.Mirrored R (Node.Moved offset size) g') (indexed : g.Indexed) (acyclic : g.Acyclic)
variable (indexed' : g'.Indexed) (acyclic' : g'.Acyclic)
variable (same : ∀ pos < size, g.words[offset + pos]? = g'.words[pos]?)

include h indexed acyclic indexed' acyclic' same

/-- The trees of corresponding nodes are the same, but for where they stand. -/
theorem derivationTrees_alike (v : Vocabulary) (check : Bool) (limit : Nat) (here : R a b) :
    AlikeOutcome (fun trees trees' => trees = trees'.map (Tree.shift offset))
      (g.derivationTrees v check a limit) (g'.derivationTrees v check b limit) := by
  refine (h.derivations_alike indexed acyclic indexed' acyclic' check limit here).bind ?_
  intro ds ds' alike
  have trees := Derivation.mapM_toTree_shift (v := v) same alike
  rw [trees]
  cases ds'.mapM (·.toTree v g'.words) with
  | error fault => exact .stopped (.refl fault)
  | ok trees => exact .value rfl

end Graph.Mirrored

/-- The forest of a window, inside that of the sentence. -/
structure Forest.Windowed (offset size : Nat) (f g : Forest) : Prop where
  /-- A key over a span of the window is in both forests or in none. -/
  keys : ∀ {span : Span} {labels : Labels}, span.stop ≤ size →
    ((f.chart.find? (span.shift offset) labels).isSome ↔ (g.chart.find? span labels).isSome)
  /-- Every node over a span inside the window has a twin. -/
  twin : ∀ {span : Span} {labels : Labels} {a : NodeId}, span.Inside offset size →
    f.chart.find? span labels = some a → ∃ b, Twins offset size f g a b
  /-- Twins are built by edges that are alike in pairs, in the same order. -/
  edges : ∀ {a b : NodeId}, Twins offset size f g a b →
    List.Forall₂ (fun e e' => e.unnumbered.Alike (Twins offset size f g) e'.unnumbered)
      (f.graph.edgesOf a) (g.graph.edgesOf b)
  /-- Twins have as many derivations. -/
  count : ∀ {a b : NodeId}, Twins offset size f g a b →
    f.graph.derivationCount a = g.graph.derivationCount b
  /-- The derivations of twins are alike in pairs, in the same order. -/
  derivations : ∀ {a b : NodeId}, Twins offset size f g a b → ∀ check limit,
    AlikeOutcome (List.Forall₂ (Derivation.Alike (Twins offset size f g) (Node.Moved offset size)))
      (f.graph.derivations check a limit) (g.graph.derivations check b limit)
  /-- Twins have the same trees in the same order, but for where they stand. -/
  trees : ∀ {a b : NodeId}, Twins offset size f g a b → ∀ v check limit,
    AlikeOutcome (fun trees trees' => trees = trees'.map (Tree.shift offset))
      (f.graph.derivationTrees v check a limit) (g.graph.derivationTrees v check b limit)

namespace Parser

/-- What a parser makes of a window of a sentence does not depend on the words around it. -/
theorem parse_window (p : Parser) (before middle after : List WordId) :
    (p.parse (before ++ middle ++ after)).Windowed before.length middle.length
      (p.parse middle) := by
  obtain ⟨fills, filled⟩ := p.parse_filled (before ++ middle ++ after)
  obtain ⟨fills', filled'⟩ := p.parse_filled middle
  have indexed := p.graph_indexed (before ++ middle ++ after)
  have acyclic := p.graph_acyclic (before ++ middle ++ after)
  have indexed' := p.graph_indexed middle
  have acyclic' := p.graph_acyclic middle
  have alike := p.parse_local before middle after
  have mirrored := alike.mirrored
  have same : ∀ pos < middle.length,
      (p.parse (before ++ middle ++ after)).graph.words[before.length + pos]? =
        (p.parse middle).graph.words[pos]? := by
    intro pos inside
    rw [filled.words, filled'.words, List.append_assoc,
      List.getElem?_append_right (Nat.le_add_right _ _), Nat.add_sub_cancel_left,
      List.getElem?_append_left inside]
  exact {
    keys := alike.isSome_iff
    twin := fun window there => alike.exists_twin
      (Span.mem_upTo.1 (filled.span_of_found (Option.isSome_of_eq_some there))).1 window there
    edges := mirrored.edges
    count := mirrored.derivationCount_eq indexed acyclic indexed' acyclic'
    derivations := fun twins check limit =>
      mirrored.derivations_alike indexed acyclic indexed' acyclic' check limit twins
    trees := fun twins v check limit =>
      mirrored.derivationTrees_alike indexed acyclic indexed' acyclic' same v check limit twins }

/-- A pair of nouns has four derivations after another word, as it has by itself. -/
theorem parse_window_nouns : ∃ a,
    (nounParser.parse [9, 1, 1]).chart.find? ⟨1, 3⟩ nounParser.rootLabels = some a ∧
    ((nounParser.parse [9, 1, 1]).graph.derivationCount a).toOption = some 4 := by
  have windowed := nounParser.parse_window [9] [1, 1] []
  have pair : (nounParser.parse [1, 1]).chart.find? ⟨0, 2⟩ nounParser.rootLabels = some 2 := by
    decide +kernel
  have four : ((nounParser.parse [1, 1]).graph.derivationCount 2).toOption = some 4 := by
    decide +kernel
  have whole : ((nounParser.parse [9, 1, 1]).chart.find? ⟨1, 3⟩ nounParser.rootLabels).isSome :=
    (windowed.keys (Nat.le_refl 2)).2 (Option.isSome_of_eq_some pair)
  obtain ⟨a, there⟩ := Option.isSome_iff_exists.1 whole
  have counts := windowed.count ⟨⟨0, 2⟩, _, Nat.le_refl 2, there, pair⟩
  exact ⟨a, there, (congrArg Except.toOption counts).trans four⟩

end Parser

end PackedForest
