import PackedForest.Proofs.Forest.Sharing
import PackedForest.Proofs.Related
import Mathlib.Data.List.Nodup

/-!
# The entries of a chart

The entries of a chart are its nodes with their keys. As long as no two nodes of a span have the
same label tuple, they are what look-ups find: no key comes twice, and a key comes with the node
that its look-up gives (`Chart.mem_entries`). Adding a node only where a look-up has failed keeps
this.

In a forest whose chart and graph agree, the nodes of the entries are then all nodes of the graph,
each once (`Forest.WellFormed.numbers_perm`), and a node can be asked for its key
(`Forest.WellFormed.keyOf?_eq_some_iff`). A search of the graph by symbol and span comes to the
first of the nodes under such keys (`Forest.WellFormed.graph_find?_eq_some_iff`).
-/

namespace PackedForest

namespace Chart

variable {c : Chart} {span : Span} {labels : Labels} {id : NodeId}

/-- What a look-up finds is one of the nodes of the span. -/
theorem mem_cell_of_find? (found : c.find? span labels = some id) :
    (labels, id) ∈ c.cell span := mem_of_lookup found

theorem mem_cell_iff_mem_entries :
    (span, labels, id) ∈ c.entries ↔ (labels, id) ∈ c.cell span := by
  have nodes_of : ∀ nodes, (span, nodes) ∈ c.cells.toList ↔ c.cells[span]? = some nodes :=
    fun _ => Std.TreeMap.mem_toList_iff_getElem?_eq_some
  simp only [entries, List.mem_flatMap, List.mem_map, List.mem_mergeSort, cell]
  constructor
  · rintro ⟨⟨s, nodes⟩, stored, ⟨l, i⟩, member, same⟩
    cases same
    rw [(nodes_of nodes).1 stored]
    exact member
  · intro member
    cases stored : c.cells[span]? with
    | none =>
        rw [stored] at member
        cases member
    | some nodes =>
        rw [stored] at member
        exact ⟨(span, nodes), (nodes_of nodes).2 stored, (labels, id), member, rfl⟩

/-- The entries are the keys with the nodes that their look-ups find. -/
theorem mem_entries (h : c.Distinct) :
    (span, labels, id) ∈ c.entries ↔ c.find? span labels = some id :=
  mem_cell_iff_mem_entries.trans ⟨lookup_of_mem (h span), mem_cell_of_find?⟩

/-- No key comes twice. -/
theorem nodup_keys (h : c.Distinct) : (c.entries.map fun e => (e.1, e.2.1)).Nodup := by
  rw [entries, List.map_flatMap, List.nodup_flatMap]
  constructor
  · rintro ⟨s, nodes⟩ stored
    have here : nodes = c.cell s := by
      rw [cell, Std.TreeMap.mem_toList_iff_getElem?_eq_some.1 stored]
      rfl
    have tuples := (((List.mergeSort_perm nodes fun a b => (compare a.1 b.1).isLE).map
      (·.1)).nodup_iff.2 (here ▸ h s)).map (f := fun labels => (s, labels))
        fun _ _ same => (Prod.mk.inj same).2
    rw [List.map_map] at tuples ⊢
    exact tuples
  · refine Std.TreeMap.distinct_keys_toList.imp fun {x y} apart => ?_
    intro key first second
    obtain ⟨e, listed, rfl⟩ := List.mem_map.1 first
    obtain ⟨e', listed', same⟩ := List.mem_map.1 second
    have here : e.1 = x.1 := by
      obtain ⟨-, -, rfl⟩ := List.mem_map.1 listed
      rfl
    have there : e'.1 = y.1 := by
      obtain ⟨-, -, rfl⟩ := List.mem_map.1 listed'
      rfl
    rw [here, there] at same
    exact apart (Std.compare_eq_iff_eq.2 (Prod.mk.inj same).1.symm)

theorem length_entries (c : Chart) : c.entries.length = c.size := by
  simp only [entries, size, List.length_flatMap, List.length_map, List.length_mergeSort]

/-- The key under which look-ups find a node. -/
def keyOf? (c : Chart) (id : NodeId) : Option (Span × Labels) :=
  (c.entries.map fun e => (e.1, e.2.1)).find? fun key => c.find? key.1 key.2 = some id

end Chart

namespace Forest.WellFormed

variable {f : Forest} (h : f.WellFormed)

include h

/-- Every node is the node of one key. -/
theorem exists_find? {id : NodeId} (known : id < f.graph.nodes.size) :
    ∃ span labels, f.chart.find? span labels = some id := by
  obtain ⟨labels, found, -⟩ := h.exists_key (Array.getElem?_eq_getElem known)
  exact ⟨_, labels, found⟩

/-- The node of a key has its span and its source label. -/
theorem node_of_find? {span : Span} {labels : Labels} {id : NodeId}
    (found : f.chart.find? span labels = some id) : ∃ node, f.graph.nodes[id]? = some node ∧
      node.id = id ∧ node.span = span ∧ node.sym = labels.source := by
  have here := Array.getElem?_eq_getElem (h.lt_size found)
  obtain ⟨labels', found', sym⟩ := h.exists_key here
  obtain ⟨same_span, same_labels⟩ := h.key_unique found' found
  exact ⟨_, here, h.indexed.node_id here, same_span, same_labels ▸ sym.symm⟩

/-- A search by symbol and span comes to the first of the nodes under such keys. -/
theorem graph_find?_eq_some_iff {sym : WordId} {span : Span} {id : NodeId} :
    f.graph.find? sym span = some id ↔
      (∃ labels, labels.source = sym ∧ f.chart.find? span labels = some id) ∧
      ∀ labels other, labels.source = sym → f.chart.find? span labels = some other →
        id ≤ other := by
  rw [Graph.find?, Option.map_eq_some_iff]
  constructor
  · rintro ⟨node, first, rfl⟩
    rw [Array.find?_eq_some_iff_getElem] at first
    obtain ⟨matched, i, inside, rfl, before⟩ := first
    have here := Array.getElem?_eq_getElem inside
    rw [Bool.and_eq_true, beq_iff_eq, beq_iff_eq] at matched
    rw [h.indexed.node_id here]
    obtain ⟨labels, found, source⟩ := h.exists_key here
    refine ⟨⟨labels, source.trans matched.1, matched.2 ▸ found⟩, ?_⟩
    intro labels' other source' found'
    by_contra earlier
    obtain ⟨node, there, -, same_span, same_sym⟩ := h.node_of_find? found'
    obtain ⟨_, rfl⟩ := Array.getElem?_eq_some_iff.1 there
    have differs := before other (Nat.lt_of_not_le earlier)
    rw [same_span, same_sym, source'] at differs
    simp at differs
  · rintro ⟨⟨labels, source, found⟩, least⟩
    obtain ⟨node, here, number, same_span, same_sym⟩ := h.node_of_find? found
    obtain ⟨inside, rfl⟩ := Array.getElem?_eq_some_iff.1 here
    refine ⟨f.graph.nodes[id], ?_, number⟩
    rw [Array.find?_eq_some_iff_getElem]
    refine ⟨by simp [same_span, same_sym, source], id, inside, rfl, fun j earlier => ?_⟩
    have known : j < f.graph.nodes.size := Nat.lt_trans earlier inside
    obtain ⟨labels', found', source'⟩ := h.exists_key (Array.getElem?_eq_getElem known)
    rw [Bool.not_eq_true', Bool.and_eq_false_iff]
    by_contra both
    rw [not_or, Bool.not_eq_false, Bool.not_eq_false, beq_iff_eq, beq_iff_eq] at both
    rw [both.2] at found'
    exact Nat.not_le_of_lt earlier (least labels' j (source'.trans both.1) found')

theorem graph_find?_eq_none_iff {sym : WordId} {span : Span} :
    f.graph.find? sym span = none ↔
      ∀ labels : Labels, labels.source = sym → f.chart.find? span labels = none := by
  rw [Graph.find?, Option.map_eq_none_iff, Array.find?_eq_none]
  constructor
  · intro none labels source
    by_contra present
    obtain ⟨id, found⟩ := Option.ne_none_iff_exists'.1 present
    obtain ⟨node, here, -, same_span, same_sym⟩ := h.node_of_find? found
    exact none node (Array.mem_of_getElem? here) (by simp [same_span, same_sym, source])
  · intro none node stored matched
    rw [Bool.and_eq_true, beq_iff_eq, beq_iff_eq] at matched
    obtain ⟨id, here⟩ := Array.getElem?_of_mem stored
    obtain ⟨labels, found, source⟩ := h.exists_key here
    rw [matched.2, none labels (source.trans matched.1)] at found
    cases found

/-- The nodes of the entries are all nodes of the graph, each once. -/
theorem numbers_perm (distinct : f.chart.Distinct) :
    (f.chart.entries.map (·.2.2)).Perm (List.range f.graph.nodes.size) := by
  have apart : (f.chart.entries.map (·.2.2)).Nodup := by
    refine (List.Nodup.of_map _ (Chart.nodup_keys distinct)).map_on ?_
    rintro ⟨span, labels, id⟩ first ⟨span', labels', id'⟩ second same
    obtain rfl : id = id' := same
    rw [Chart.mem_entries distinct] at first second
    obtain ⟨rfl, rfl⟩ := h.key_unique first second
    rfl
  refine (List.perm_ext_iff_of_nodup apart List.nodup_range).2 fun id => ?_
  rw [List.mem_range, List.mem_map]
  constructor
  · rintro ⟨⟨span, labels, id⟩, listed, rfl⟩
    exact h.lt_size ((Chart.mem_entries distinct).1 listed)
  · intro known
    obtain ⟨span, labels, found⟩ := h.exists_find? known
    exact ⟨(span, labels, id), (Chart.mem_entries distinct).2 found, rfl⟩

theorem size_eq (distinct : f.chart.Distinct) : f.chart.size = f.graph.nodes.size := by
  have lengths := (h.numbers_perm distinct).length_eq
  rwa [List.length_map, Chart.length_entries, List.length_range] at lengths

theorem keyOf?_eq_some_iff {id : NodeId} {span : Span} {labels : Labels} :
    f.chart.keyOf? id = some (span, labels) ↔ f.chart.find? span labels = some id := by
  have gives : ∀ {key : Span × Labels}, f.chart.keyOf? id = some key →
      f.chart.find? key.1 key.2 = some id := fun first =>
    of_decide_eq_true (List.find?_some
      (p := fun key : Span × Labels => f.chart.find? key.1 key.2 = some id) first)
  constructor
  · exact gives
  · intro found
    have listed : (span, labels) ∈ f.chart.entries.map fun e => (e.1, e.2.1) :=
      List.mem_map.2 ⟨(span, labels, id), Chart.mem_cell_iff_mem_entries.2
        (Chart.mem_cell_of_find? found), rfl⟩
    cases key : f.chart.keyOf? id with
    | none => exact absurd (decide_eq_true found) (List.find?_eq_none.1 key _ listed)
    | some other =>
        obtain ⟨same_span, same_labels⟩ := h.key_unique (gives key) found
        rw [← same_span, ← same_labels]

end Forest.WellFormed

end PackedForest
