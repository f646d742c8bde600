import PackedForest.Proofs.Forest.Sharing
import PackedForest.Proofs.Graph.Unfolding

/-!
# The edges under a key

The numbers of nodes and edges depend on the order in which a forest was built. What does not
depend on it can be told by keys: `Forest.edgesUnder` gives the edges that build the node of a key.

Applications of rules add to the edges under the keys of their heads, in their order, and leave
those under all other keys alone (`Forest.Grows.edgesUnder_eq`).
-/

namespace PackedForest.Forest

/-- The edges that build the node of a key, as they were handed to the graph. Without such a node
there are none. -/
def edgesUnder (f : Forest) (span : Span) (labels : Labels) : List EdgeRecord :=
  match f.chart.find? span labels with
  | some id => (f.graph.edgesOf id).map Edge.unnumbered
  | none => []

variable {f f' : Forest} {span : Span} {labels : Labels}

theorem edgesUnder_of_find? {id : NodeId} (found : f.chart.find? span labels = some id) :
    f.edgesUnder span labels = (f.graph.edgesOf id).map Edge.unnumbered := by
  rw [edgesUnder, found]

theorem edgesUnder_of_missing (missing : f.chart.find? span labels = none) :
    f.edgesUnder span labels = [] := by
  rw [edgesUnder, missing]

namespace WellFormed

variable (h : f.WellFormed)

include h

/-- The edges under a key are those of the graph whose head is the node. -/
theorem edgesUnder_eq_filterMap {id : NodeId} (found : f.chart.find? span labels = some id) :
    f.edgesUnder span labels = (f.graph.edges.toList.map fun e => some e.unnumbered).filterMap
      (·.filter (·.head = id)) := by
  rw [edgesUnder_of_find? found, h.indexed.edgesOf_eq_filter (h.lt_size found),
    List.filterMap_map, ← List.filterMap_eq_map, List.filterMap_filter]
  refine List.filterMap_congr fun e _ => ?_
  rw [Function.comp_apply, Function.comp_apply, Option.filter_some]
  rfl

/-- A node that another forest has and this one has not is the head of no edge here. -/
theorem filterMap_head_of_missing (missing : f.chart.find? span labels = none) {id : NodeId}
    (other : ∀ {s : Span} {l : Labels}, f.chart.find? s l = some id → s = span ∧ l = labels) :
    (f.graph.edges.toList.map fun e => some e.unnumbered).filterMap
      (·.filter (·.head = id)) = [] := by
  rw [List.filterMap_map, List.filterMap_eq_nil_iff]
  intro e stored
  have known := h.indexed.head_lt (h.indexed.getElem?_id stored)
  obtain ⟨labels', found, -⟩ := h.exists_key (Array.getElem?_eq_getElem known)
  have apart : e.head ≠ id := by
    rintro rfl
    obtain ⟨same_span, same_labels⟩ := other found
    rw [same_span, same_labels, missing] at found
    cases found
  rw [Function.comp_apply, Option.filter_some]
  exact if_neg (mt of_decide_eq_true apart)

end WellFormed

namespace Grows

variable {placed : List (Span × Application)} (h : f.Grows placed f') {id : NodeId}
variable (found : f'.chart.find? span labels = some id)

include h found

/-- The edges that a forest had under the key of a node. -/
theorem filterMap_head (wf : f.WellFormed) :
    (f.graph.edges.toList.map fun e => some e.unnumbered).filterMap (·.filter (·.head = id)) =
      f.edgesUnder span labels := by
  cases before : f.chart.find? span labels with
  | some id' =>
      obtain rfl : id' = id := Option.some.inj ((h.find?_of before).symm.trans found)
      exact (wf.edgesUnder_eq_filterMap before).symm
  | none =>
      rw [edgesUnder_of_missing before]
      exact wf.filterMap_head_of_missing before fun there =>
        h.wellFormed.key_unique (h.find?_of there) found

/-- The edges of a node that come of what was applied are those of the applications under its key.
-/
theorem filterMap_placed :
    (placed.map fun x => x.2.edgeIn? f'.chart x.1).filterMap (·.filter (·.head = id)) =
      (placed.filter fun x => x.1 = span ∧ x.2.rule.head = labels).filterMap fun x =>
        x.2.edgeIn? f'.chart x.1 := by
  rw [List.filterMap_map, List.filterMap_filter]
  refine List.filterMap_congr fun x member => ?_
  obtain ⟨head, there⟩ := Option.isSome_iff_exists.1
    (h.isSome_iff.2 (.inr ⟨x, member, rfl, rfl⟩))
  have edge : x.2.edgeIn? f'.chart x.1 = some (x.2.edge head) := by
    rw [Application.edgeIn?, there]
    rfl
  have same_key : head = id ↔ x.1 = span ∧ x.2.rule.head = labels := by
    constructor
    · rintro rfl
      exact h.wellFormed.key_unique there found
    · rintro ⟨rfl, rfl⟩
      exact Option.some.inj (there.symm.trans found)
  rw [Function.comp_apply, edge, Option.filter_some]
  simp only [Application.edge, same_key]

end Grows

/-- What applications of rules do to the edges under a key. -/
theorem Grows.edgesUnder_eq {placed : List (Span × Application)} (h : f.Grows placed f')
    (wf : f.WellFormed) (span : Span) (labels : Labels) :
    f'.edgesUnder span labels = f.edgesUnder span labels ++
      (placed.filter fun x => x.1 = span ∧ x.2.rule.head = labels).filterMap fun x =>
        x.2.edgeIn? f'.chart x.1 := by
  cases found : f'.chart.find? span labels with
  | none =>
      have absent : ¬ (f'.chart.find? span labels).isSome := by simp [found]
      rw [h.isSome_iff, not_or] at absent
      have none_placed : (placed.filter fun x => x.1 = span ∧ x.2.rule.head = labels) = [] := by
        apply List.filter_eq_nil_iff.2
        intro x member here
        exact absent.2 ⟨x, member, of_decide_eq_true here⟩
      rw [edgesUnder_of_missing found, none_placed,
        edgesUnder_of_missing (Option.not_isSome_iff_eq_none.1 absent.1)]
      rfl
  | some id =>
      rw [h.wellFormed.edgesUnder_eq_filterMap found, h.edges, List.filterMap_append,
        h.filterMap_head found wf, h.filterMap_placed found]

end PackedForest.Forest
