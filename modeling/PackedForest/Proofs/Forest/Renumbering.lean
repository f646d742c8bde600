import PackedForest.Proofs.Forest.Entries
import PackedForest.Proofs.Forest.Twins

/-!
# Forests up to the numbers of their nodes and edges

Two forests over one sentence may number their nodes and edges in different ways. An edge is told
apart from its numbers by `Forest.keyed`, which puts the keys of its nodes in their place.

Nodes under the same key are related by `Forest.SameKey`, and edges that are alike up to this
relation have the same keyed form (`EdgeRecord.Alike.keyed_eq`).
-/

namespace PackedForest

/-- An edge with the keys of its nodes in place of their numbers, and without a number of its own.
As long as the chart has all nodes of the graph, no key is missing. -/
structure KeyedEdge where
  head : Option (Span × Labels)
  tails : List (Option (Span × Labels))
  probability : Float
  features : Features
  targets : List (List Symbol)
  sourceText : Option String

namespace Forest

variable {f g : Forest} {span : Span} {labels : Labels}

def keyed (f : Forest) (r : EdgeRecord) : KeyedEdge where
  head := f.chart.keyOf? r.head
  tails := r.tails.map f.chart.keyOf?
  probability := r.probability
  features := r.features
  targets := r.targets
  sourceText := r.sourceText

/-- Nodes of two forests under the same key. -/
def SameKey (f g : Forest) (a b : NodeId) : Prop := f.chart.keyOf? a = g.chart.keyOf? b

/-- The forests have nodes over the same span under the same tuples. -/
def SameKeysOn (f g : Forest) (span : Span) : Prop :=
  ∀ labels, (f.chart.find? span labels).isSome ↔ (g.chart.find? span labels).isSome

theorem SameKeysOn.find?_rel (same : f.SameKeysOn g span) (wf : f.WellFormed)
    (wf' : g.WellFormed) (labels : Labels) :
    Option.Rel (SameKey f g) (f.chart.find? span labels) (g.chart.find? span labels) :=
  optionRel_of_isSome_iff (same labels) fun _ _ there here =>
    (wf.keyOf?_eq_some_iff.2 there).trans (wf'.keyOf?_eq_some_iff.2 here).symm

end Forest

theorem EdgeRecord.Alike.keyed_eq {f g : Forest} {r r' : EdgeRecord}
    (h : r.Alike (Forest.SameKey f g) r') : f.keyed r = g.keyed r' := by
  have head : f.chart.keyOf? r.head = g.chart.keyOf? r'.head := h.head
  have tails : r.tails.map f.chart.keyOf? = r'.tails.map g.chart.keyOf? :=
    map_eq_map_of_forall₂ h.tails
  rw [Forest.keyed, Forest.keyed, head, tails, h.probability, h.features, h.targets, h.sourceText]

/-- Uses of a rule over nodes under the same keys make the same edge, where there are nodes under
the key of its head. -/
theorem Application.Alike.keyed_edgeIn?_of_found {f g : Forest} {span : Span} {a b : Application}
    (h : a.Alike (Forest.SameKey f g) b) (wf : f.WellFormed) (wf' : g.WellFormed) {head : NodeId}
    (there : f.chart.find? span a.rule.head = some head)
    (present : (g.chart.find? span a.rule.head).isSome) :
    (a.edgeIn? f.chart span).map f.keyed = (b.edgeIn? g.chart span).map g.keyed := by
  obtain ⟨head', here⟩ := Option.isSome_iff_exists.1 present
  have heads : Forest.SameKey f g head head' :=
    (wf.keyOf?_eq_some_iff.2 there).trans (wf'.keyOf?_eq_some_iff.2 here).symm
  rw [edgeIn?, edgeIn?, there, ← h.rule, here]
  exact congrArg some (h.edge heads).keyed_eq

/-- Uses of a rule over nodes under the same keys make the same edge. -/
theorem Application.Alike.keyed_edgeIn? {f g : Forest} {span : Span} {a b : Application}
    (h : a.Alike (Forest.SameKey f g) b) (same : f.SameKeysOn g span) (wf : f.WellFormed)
    (wf' : g.WellFormed) :
    (a.edgeIn? f.chart span).map f.keyed = (b.edgeIn? g.chart span).map g.keyed := by
  cases there : f.chart.find? span a.rule.head with
  | some head =>
      exact h.keyed_edgeIn?_of_found wf wf' there ((same _).1 (Option.isSome_of_eq_some there))
  | none =>
      have here : g.chart.find? span a.rule.head = none := by simpa [there] using same a.rule.head
      rw [edgeIn?, edgeIn?, there, ← h.rule, here]
      rfl

end PackedForest
