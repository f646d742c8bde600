import PackedForest.Proofs.Forest.Keys
import PackedForest.Proofs.Related
import PackedForest.Proofs.Span.Window

/-!
# Two forests on one window

A sentence and a window of it have a forest each. Nodes of the two are twins if they have the same
labels, over spans that are the same but for the offset of the window. `Forest.Local` says that the
two forests are the same as far as the window goes: keys over spans of the window are in both or in
none, and the edges under them are alike in pairs, in the same order.

An application outside the window leaves this as it is (`Local.outside`), and so do two applications
of one rule to twins, one in each forest (`Local.grow`).
-/

namespace PackedForest

variable {R S : NodeId → NodeId → Prop}

/-- Edges of two graphs that only differ in the numbers of their nodes, which correspond. -/
structure EdgeRecord.Alike (R : NodeId → NodeId → Prop) (r r' : EdgeRecord) : Prop where
  head : R r.head r'.head
  tails : List.Forall₂ R r.tails r'.tails
  probability : r.probability = r'.probability
  features : r.features = r'.features
  targets : r.targets = r'.targets
  sourceText : r.sourceText = r'.sourceText

theorem EdgeRecord.Alike.mono (more : ∀ a b, R a b → S a b) {r r' : EdgeRecord}
    (h : r.Alike R r') : r.Alike S r' :=
  { h with
    head := more _ _ h.head
    tails := h.tails.imp more }

/-- Uses of the same rule with corresponding tails. -/
structure Application.Alike (R : NodeId → NodeId → Prop) (a b : Application) : Prop where
  rule : a.rule = b.rule
  tails : List.Forall₂ R a.tails b.tails
  keepSourceText : a.keepSourceText = b.keepSourceText

namespace Application.Alike

variable {a b : Application}

theorem mono (more : ∀ a b, R a b → S a b) (h : a.Alike R b) : a.Alike S b :=
  { h with tails := h.tails.imp more }

theorem edge (h : a.Alike R b) {head head' : NodeId} (heads : R head head') :
    (a.edge head).Alike R (b.edge head') where
  head := heads
  tails := h.tails
  probability := congrArg (·.features.probability) h.rule
  features := congrArg (·.features) h.rule
  targets := congrArg (·.targets) h.rule
  sourceText := by
    simp only [Application.edge, h.rule, h.keepSourceText]

end Application.Alike

namespace Forest

variable {offset size : Nat} {f f' g g' : Forest} {span : Span}

/-- Nodes of two forests under the same labels. The span of the first is that of the second, moved
on by the offset of the window. -/
def Twins (offset size : Nat) (f g : Forest) (a b : NodeId) : Prop :=
  ∃ span labels, span.stop ≤ size ∧ f.chart.find? (span.shift offset) labels = some a ∧
    g.chart.find? span labels = some b

theorem Twins.right_unique (wf : f.WellFormed) {a b b' : NodeId} (h : Twins offset size f g a b)
    (h' : Twins offset size f g a b') : b = b' := by
  obtain ⟨span, labels, -, there, here⟩ := h
  obtain ⟨span', labels', -, there', here'⟩ := h'
  obtain ⟨same_span, rfl⟩ := wf.key_unique there there'
  obtain rfl := Span.shift_inj.1 same_span
  exact Option.some.inj (here.symm.trans here')

theorem Twins.left_unique (wf : g.WellFormed) {a a' b : NodeId} (h : Twins offset size f g a b)
    (h' : Twins offset size f g a' b) : a = a' := by
  obtain ⟨span, labels, -, there, here⟩ := h
  obtain ⟨span', labels', -, there', here'⟩ := h'
  obtain ⟨rfl, rfl⟩ := wf.key_unique here here'
  exact Option.some.inj (there.symm.trans there')

/-- The two forests are the same on the window. -/
structure Local (offset size : Nat) (f g : Forest) : Prop where
  whole : f.WellFormed
  part : g.WellFormed
  isSome_iff : ∀ {span : Span} {labels : Labels}, span.stop ≤ size →
    ((f.chart.find? (span.shift offset) labels).isSome ↔ (g.chart.find? span labels).isSome)
  edges : ∀ {span : Span} {labels : Labels}, span.stop ≤ size →
    List.Forall₂ (EdgeRecord.Alike (Twins offset size f g))
      (f.edgesUnder (span.shift offset) labels) (g.edgesUnder span labels)

namespace Local

theorem empty (offset size : Nat) (sentence words : List WordId) :
    Local offset size ⟨{ Graph.empty with words := sentence }, .empty⟩
      ⟨{ Graph.empty with words }, .empty⟩ where
  whole := .empty sentence
  part := .empty words
  isSome_iff _ := by simp [Chart.find?]
  edges {span labels} _ := by
    have missing : ∀ s, Chart.empty.find? s labels = none := fun s => by simp [Chart.find?]
    rw [edgesUnder_of_missing (missing _), edgesUnder_of_missing (missing _)]
    exact .nil

/-- A look-up in the window finds twins, or nothing in both forests. -/
theorem find?_rel (h : f.Local offset size g) (inside : span.stop ≤ size) (labels : Labels) :
    Option.Rel (Twins offset size f g) (f.chart.find? (span.shift offset) labels)
      (g.chart.find? span labels) :=
  optionRel_of_isSome_iff (h.isSome_iff inside) fun _ _ there here =>
    ⟨span, labels, inside, there, here⟩

/-- A node over a span inside the window has a twin. -/
theorem exists_twin (h : f.Local offset size g) (nonempty : span.start < span.stop)
    (window : span.Inside offset size) {labels : Labels} {a : NodeId}
    (there : f.chart.find? span labels = some a) : ∃ b, Twins offset size f g a b := by
  obtain ⟨s, inside, rfl⟩ := window.exists_shift nonempty
  obtain ⟨b, here⟩ := Option.isSome_iff_exists.1
    ((h.isSome_iff inside).1 (Option.isSome_of_eq_some there))
  exact ⟨b, s, labels, inside, there, here⟩

/-- What is applied outside the window does not show in it. -/
theorem outside (h : f.Local offset size g) {placed : List (Span × Application)}
    (grows : f.Grows placed f')
    (apart : ∀ x ∈ placed, ∀ span : Span, span.stop ≤ size → x.1 ≠ span.shift offset) :
    f'.Local offset size g where
  whole := grows.wellFormed
  part := h.part
  isSome_iff {span labels} inside := by
    rw [grows.find?_eq fun x member => apart x member span inside]
    exact h.isSome_iff inside
  edges {span labels} inside := by
    have none_here : (placed.filter fun x => x.1 = span.shift offset ∧ x.2.rule.head = labels) =
        [] := by
      apply List.filter_eq_nil_iff.2
      intro x member here
      exact apart x member span inside (of_decide_eq_true here).1
    rw [grows.edgesUnder_eq h.whole, none_here, List.filterMap_nil, List.append_nil]
    refine (h.edges inside).imp fun r r' alike => alike.mono ?_
    rintro a b ⟨span, labels, inside, there, here⟩
    exact ⟨span, labels, inside, grows.find?_of there, here⟩

section Grow

variable {a b : Application} (h : f.Local offset size g) (inside : span.stop ≤ size)
variable (whole : f.Grows [(span.shift offset, a)] f') (part : g.Grows [(span, b)] g')
variable (alike : a.Alike (Twins offset size f g) b)

include whole part in
theorem twins_mono (x y : NodeId) (twins : Twins offset size f g x y) :
    Twins offset size f' g' x y := by
  obtain ⟨span, labels, inside, there, here⟩ := twins
  exact ⟨span, labels, inside, whole.find?_of there, part.find?_of here⟩

include h inside whole part alike

/-- Two applications of one rule to twins, on the same span but for the offset. -/
theorem grow : f'.Local offset size g' := by
  have keys : ∀ s : Span, ∀ labels, span.shift offset = s.shift offset ∧ a.rule.head = labels ↔
      span = s ∧ b.rule.head = labels := by
    intro s labels
    rw [Span.shift_inj, alike.rule]
  have isSome_iff : ∀ {s : Span} {labels : Labels}, s.stop ≤ size →
      ((f'.chart.find? (s.shift offset) labels).isSome ↔
        (g'.chart.find? s labels).isSome) := by
    intro s labels inside
    rw [whole.isSome_iff, part.isSome_iff, h.isSome_iff inside]
    simp only [List.mem_singleton, exists_eq_left, keys]
  refine ⟨whole.wellFormed, part.wellFormed, isSome_iff, ?_⟩
  intro s labels inside_s
  rw [whole.edgesUnder_eq h.whole, part.edgesUnder_eq h.part]
  refine List.rel_append ((h.edges inside_s).imp fun _ _ old =>
    old.mono (twins_mono whole part)) ?_
  rw [List.filter_singleton, List.filter_singleton, decide_eq_decide.2 (keys s labels)]
  by_cases here : span = s ∧ b.rule.head = labels
  · obtain ⟨head, head_found⟩ := Option.isSome_iff_exists.1
      (whole.isSome_iff.2 (.inr ⟨_, List.mem_cons_self, rfl, rfl⟩))
    obtain ⟨head', head_found'⟩ := Option.isSome_iff_exists.1
      (part.isSome_iff.2 (.inr ⟨_, List.mem_cons_self, rfl, rfl⟩))
    have edge : a.edgeIn? f'.chart (span.shift offset) = some (a.edge head) := by
      rw [Application.edgeIn?, head_found]
      rfl
    have edge' : b.edgeIn? g'.chart span = some (b.edge head') := by
      rw [Application.edgeIn?, head_found']
      rfl
    have heads : Twins offset size f' g' head head' :=
      ⟨span, b.rule.head, inside, alike.rule ▸ head_found, head_found'⟩
    rw [decide_eq_true here, cond_true, cond_true]
    simp only [List.filterMap_cons, List.filterMap_nil, edge, edge']
    exact .cons ((alike.mono (twins_mono whole part)).edge heads) .nil
  · rw [decide_eq_false here]
    exact .nil

end Grow

end Local

end Forest

end PackedForest
