import PackedForest.Parser.Forest
import PackedForest.Proofs.Graph.Arena

/-!
# One node for each key

The key of a node is its span and label tuple. `Forest.KeyedBy` states that the chart of a
forest and the nodes of its graph number the same keys: a look-up finds a node exactly if the
key stands at the place of that node. So no two nodes share a key and no node is without one.

A forest only changes by applications of rules. `Forest.Grows` says all that a list of
applications does: nodes that were there keep their numbers, the keys that come in are those of
the heads, and the edges that come in are those of the applications, in order.
-/

namespace PackedForest

/-- A key that is new to the chart takes the number it is given; other look-ups stay. -/
theorem Chart.find?_insert {c : Chart} {span : Span} {labels : Labels}
    (missing : c.find? span labels = none) (id : NodeId) (s : Span) (l : Labels) :
    (c.insert span labels id).find? s l =
      if s = span ∧ l = labels then some id else c.find? s l := by
  by_cases here : s = span
  · subst here
    have last : [(labels, id)].lookup l = if l = labels then some id else none := by
      by_cases same : l = labels
      · simp [same]
      · simp [same, List.lookup_cons, beq_eq_false_iff_ne.2 same]
    rw [find?, cell_insert, if_pos rfl, List.lookup_append, last]
    by_cases same : l = labels
    · rw [find?] at missing
      simp [same, missing]
    · simp [same, find?]
  · rw [find?, cell_insert, if_neg (Ne.symm here), if_neg fun same => here same.1]
    rfl

/-- No two nodes of a span have the same label tuple. -/
def Chart.Distinct (c : Chart) : Prop := ∀ span, ((c.cell span).map (·.1)).Nodup

theorem Chart.Distinct.empty : Distinct .empty := fun span => by simp

theorem Chart.Distinct.insert {c : Chart} (h : c.Distinct) {span : Span} {labels : Labels}
    (missing : c.find? span labels = none) (id : NodeId) : (c.insert span labels id).Distinct := by
  intro other
  rw [cell_insert]
  split
  · rw [List.map_append, List.map_singleton, List.nodup_append]
    refine ⟨h span, by simp, fun l old l' new same => ?_⟩
    obtain ⟨x, member, rfl⟩ := List.mem_map.1 old
    rw [List.mem_singleton.1 new] at same
    exact absurd same.symm (bne_iff_ne.1 (List.lookup_eq_none_iff.1 missing x member))
  · exact h other

theorem getElem?_concat {α : Type} (as : List α) (a : α) (i : Nat) :
    (as ++ [a])[i]? = if i = as.length then some a else as[i]? := by
  by_cases last : i = as.length
  · simp [last]
  · rw [if_neg last, List.getElem?_append]
    split
    · rfl
    · rw [List.getElem?_eq_none (by simp; omega), List.getElem?_eq_none (by omega)]

/-- The span of a node. -/
def Graph.spanOf? (g : Graph) (id : NodeId) : Option Span := g.nodes[id]?.map (·.span)

/-- The edge as it was handed to the graph, before it took a number. -/
def Edge.unnumbered (e : Edge) : EdgeRecord := { e.record with id := none }

@[simp] theorem Edge.unnumbered_numbered (r : EdgeRecord) (id : EdgeId) (h : r.id = none) :
    Edge.unnumbered (r.numbered id) = r := by
  cases r
  cases h
  rfl

/-- The edge of an application over a span, if its head has a node there. -/
def Application.edgeIn? (a : Application) (chart : Chart) (span : Span) : Option EdgeRecord :=
  (chart.find? span a.rule.head).map a.edge

namespace Forest

/-- The keys of the nodes in the order of their numbers. -/
structure KeyedBy (f : Forest) (keys : List (Span × Labels)) : Prop where
  find_iff : ∀ {span : Span} {labels : Labels} {id : NodeId},
    f.chart.find? span labels = some id ↔ keys[id]? = some (span, labels)
  node_key : ∀ id : NodeId, f.graph.nodes[id]?.map (fun n => (n.span, n.sym)) =
    keys[id]?.map fun key => (key.1, key.2.source)

/-- The chart and the graph agree, and so do the two stores of the graph. -/
structure WellFormed (f : Forest) : Prop where
  keyed : ∃ keys, f.KeyedBy keys
  indexed : f.graph.Indexed

variable {f : Forest}

theorem KeyedBy.length_eq {keys : List (Span × Labels)} (h : f.KeyedBy keys) :
    keys.length = f.graph.nodes.size := by
  have same : ∀ id : NodeId, id < f.graph.nodes.size ↔ id < keys.length := by
    intro id
    have present := congrArg Option.isSome (h.node_key id)
    rw [Option.isSome_map, Option.isSome_map] at present
    simpa using Bool.eq_iff_iff.1 present
  exact Nat.le_antisymm
    (Nat.not_lt.1 fun lt => Nat.lt_irrefl _ ((same _).2 lt))
    (Nat.not_lt.1 fun lt => Nat.lt_irrefl _ ((same _).1 lt))

/-- A new node takes the next number, and so does its key. -/
theorem KeyedBy.pushNode {keys : List (Span × Labels)} (h : f.KeyedBy keys) {span : Span}
    {labels : Labels} (missing : f.chart.find? span labels = none) :
    KeyedBy ⟨f.graph.pushNode (.new labels.source span),
      f.chart.insert span labels f.graph.nodes.size⟩ (keys ++ [(span, labels)]) where
  find_iff {s l id} := by
    rw [Chart.find?_insert missing, getElem?_concat, ← h.length_eq]
    by_cases same : s = span ∧ l = labels
    · rw [if_pos same, same.1, same.2]
      have absent : keys[id]? ≠ some (span, labels) := fun key => by
        rw [h.find_iff.2 key] at missing
        cases missing
      split
      · next new => simp [new]
      · next old => simpa [absent] using Ne.symm old
    · rw [if_neg same, h.find_iff]
      split
      · next new =>
          rw [new, List.getElem?_eq_none (Nat.le_refl _)]
          simpa [eq_comm] using same
      · rfl
  node_key id := by
    rw [Graph.getElem?_nodes_pushNode, getElem?_concat, h.length_eq]
    split
    · rfl
    · exact h.node_key id

/-- An edge leaves the nodes under their keys. -/
theorem KeyedBy.pushEdge {keys : List (Span × Labels)} (h : f.KeyedBy keys) (r : EdgeRecord) :
    KeyedBy { f with graph := f.graph.pushEdge r } keys where
  find_iff := h.find_iff
  node_key id := by
    rw [← h.node_key, Graph.getElem?_nodes_pushEdge, Option.map_map]
    congr 1
    funext n
    dsimp only [Function.comp]
    split <;> rfl

namespace WellFormed

theorem lt_size (h : f.WellFormed) {span : Span} {labels : Labels} {id : NodeId}
    (found : f.chart.find? span labels = some id) : id < f.graph.nodes.size := by
  obtain ⟨keys, keyed⟩ := h.keyed
  rw [← keyed.length_eq]
  exact (List.getElem?_eq_some_iff.1 (keyed.find_iff.1 found)).1

theorem spanOf?_eq (h : f.WellFormed) {span : Span} {labels : Labels} {id : NodeId}
    (found : f.chart.find? span labels = some id) : f.graph.spanOf? id = some span := by
  obtain ⟨keys, keyed⟩ := h.keyed
  have key := keyed.node_key id
  rw [keyed.find_iff.1 found] at key
  obtain ⟨n, node, same⟩ := Option.map_eq_some_iff.1 key
  rw [Graph.spanOf?, node]
  exact congrArg some (Prod.mk.inj same).1

/-- Every node stands under a key, which has its span and its symbol. -/
theorem exists_key (h : f.WellFormed) {id : NodeId} {node : Node}
    (here : f.graph.nodes[id]? = some node) :
    ∃ labels, f.chart.find? node.span labels = some id ∧ labels.source = node.sym := by
  obtain ⟨keys, keyed⟩ := h.keyed
  have key := keyed.node_key id
  rw [here, eq_comm] at key
  obtain ⟨⟨span, labels⟩, listed, same⟩ := Option.map_eq_some_iff.1 key
  obtain ⟨rfl, sym⟩ := Prod.mk.inj same
  exact ⟨labels, keyed.find_iff.2 listed, sym⟩

/-- No node stands under two keys. -/
theorem key_unique (h : f.WellFormed) {span span' : Span} {labels labels' : Labels}
    {id : NodeId} (found : f.chart.find? span labels = some id)
    (found' : f.chart.find? span' labels' = some id) : span = span' ∧ labels = labels' := by
  obtain ⟨keys, keyed⟩ := h.keyed
  have same := (keyed.find_iff.1 found).symm.trans (keyed.find_iff.1 found')
  exact Prod.mk.inj (Option.some.inj same)

theorem empty (words : List WordId) :
    WellFormed ⟨{ Graph.empty with words }, .empty⟩ where
  keyed := ⟨[], by simp [Chart.find?], by simp [Graph.empty]⟩
  indexed := .empty words

end WellFormed

/-- What looking a key up does to a forest. Afterwards the key has the number that was handed out,
and all other keys are as before. -/
structure Shares (f : Forest) (span : Span) (labels : Labels) (id : NodeId) (isNew : Bool)
    (f' : Forest) : Prop where
  wellFormed : f'.WellFormed
  words : f'.graph.words = f.graph.words
  edges : f'.graph.edges = f.graph.edges
  distinct : f.chart.Distinct → f'.chart.Distinct
  new_iff : isNew = true ↔ f.chart.find? span labels = none
  find?_of : ∀ {s : Span} {l : Labels} {t : NodeId},
    f.chart.find? s l = some t → f'.chart.find? s l = some t
  find?_key : f'.chart.find? span labels = some id
  find?_other : ∀ {s : Span} {l : Labels}, ¬ (s = span ∧ l = labels) →
    f'.chart.find? s l = f.chart.find? s l

theorem findOrAdd_shares (h : f.WellFormed) (span : Span) (labels : Labels) :
    ∃ id isNew f', f.findOrAdd span labels = (id, isNew, f') ∧
      f.Shares span labels id isNew f' := by
  unfold findOrAdd
  split
  · next id found =>
      exact ⟨id, false, f, rfl, {
        wellFormed := h
        words := rfl
        edges := rfl
        distinct := fun distinct => distinct
        new_iff := by simp [found]
        find?_of := fun found => found
        find?_key := found
        find?_other := fun _ => rfl }⟩
  · next missing =>
      obtain ⟨keys, keyed⟩ := h.keyed
      have find := Chart.find?_insert missing f.graph.nodes.size
      refine ⟨_, true, _, rfl, {
        wellFormed := ⟨⟨_, keyed.pushNode missing⟩, h.indexed.pushNode rfl⟩
        words := rfl
        edges := rfl
        distinct := fun distinct => distinct.insert missing _
        new_iff := by simp [missing]
        find?_of := fun {s l t} found => ?_
        find?_key := (find span labels).trans (if_pos ⟨rfl, rfl⟩)
        find?_other := fun {s l} other => (find s l).trans (if_neg other) }⟩
      rw [find, if_neg]
      · exact found
      · rintro ⟨rfl, rfl⟩
        cases missing.symm.trans found

/-- What some applications of rules do to a forest. Nodes keep their numbers, the keys that come
in are those of the heads, and the edges that come in are those of the applications. -/
structure Grows (f : Forest) (placed : List (Span × Application)) (f' : Forest) : Prop where
  wellFormed : f'.WellFormed
  words : f'.graph.words = f.graph.words
  distinct : f.chart.Distinct → f'.chart.Distinct
  find?_of : ∀ {span : Span} {labels : Labels} {id : NodeId},
    f.chart.find? span labels = some id → f'.chart.find? span labels = some id
  isSome_iff : ∀ {span : Span} {labels : Labels}, (f'.chart.find? span labels).isSome ↔
    (f.chart.find? span labels).isSome ∨
      ∃ x ∈ placed, x.1 = span ∧ x.2.rule.head = labels
  edges : f'.graph.edges.toList.map (fun e => some e.unnumbered) =
    f.graph.edges.toList.map (fun e => some e.unnumbered) ++
      placed.map fun x => x.2.edgeIn? f'.chart x.1

namespace Grows

theorem refl (h : f.WellFormed) : f.Grows [] f where
  wellFormed := h
  words := rfl
  distinct := id
  find?_of := id
  isSome_iff := by simp
  edges := by simp

theorem edgeIn?_isSome {f' : Forest} {placed : List (Span × Application)}
    (h : f.Grows placed f') {x : Span × Application} (member : x ∈ placed) :
    (x.2.edgeIn? f'.chart x.1).isSome := by
  rw [Application.edgeIn?, Option.isSome_map, h.isSome_iff]
  exact .inr ⟨x, member, rfl, rfl⟩

/-- Spans that nothing is placed on keep their nodes. -/
theorem find?_eq {f' : Forest} {placed : List (Span × Application)} (h : f.Grows placed f')
    {span : Span} (untouched : ∀ x ∈ placed, x.1 ≠ span) (labels : Labels) :
    f'.chart.find? span labels = f.chart.find? span labels := by
  cases old : f.chart.find? span labels with
  | some id => exact h.find?_of old
  | none =>
      rw [← Option.not_isSome_iff_eq_none, h.isSome_iff]
      rintro (present | ⟨x, member, here, -⟩)
      · rw [old] at present
        cases present
      · exact untouched x member here

/-- An edge that is placed stays what it is while the chart grows on. -/
theorem edgeIn?_eq {f' : Forest} {placed : List (Span × Application)}
    (h : f.Grows placed f') {span : Span} {a : Application}
    (placed : (a.edgeIn? f.chart span).isSome) :
    a.edgeIn? f'.chart span = a.edgeIn? f.chart span := by
  rw [Application.edgeIn?, Option.isSome_map] at placed
  obtain ⟨id, found⟩ := Option.isSome_iff_exists.1 placed
  rw [Application.edgeIn?, Application.edgeIn?, found, h.find?_of found]

theorem trans {f' f'' : Forest} {first second : List (Span × Application)}
    (h : f.Grows first f') (h' : f'.Grows second f'') : f.Grows (first ++ second) f'' where
  wellFormed := h'.wellFormed
  words := h'.words.trans h.words
  distinct := h'.distinct ∘ h.distinct
  find?_of found := h'.find?_of (h.find?_of found)
  isSome_iff {span labels} := by
    rw [h'.isSome_iff, h.isSome_iff]
    simp only [List.mem_append, or_and_right, exists_or, or_assoc]
  edges := by
    have kept : first.map (fun x => x.2.edgeIn? f''.chart x.1) =
        first.map fun x => x.2.edgeIn? f'.chart x.1 :=
      List.map_congr_left fun x member => h'.edgeIn?_eq (h.edgeIn?_isSome member)
    rw [h'.edges, h.edges, List.map_append, kept, List.append_assoc]

end Grows

end Forest

/-- Every tail is the node of some key. -/
def Application.Grounded (a : Application) (chart : Chart) : Prop :=
  ∀ t ∈ a.tails, ∃ span labels, chart.find? span labels = some t

theorem Application.Grounded.mono {a : Application} {f f' : Forest}
    {placed : List (Span × Application)} (h : a.Grounded f.chart) (grows : f.Grows placed f') :
    a.Grounded f'.chart := fun t member =>
  let ⟨span, labels, found⟩ := h t member
  ⟨span, labels, grows.find?_of found⟩

namespace SpanProgress

/-- The tuples that are new on the span are all the tuples that have a node there. -/
def Tracks (span : Span) (p : SpanProgress) : Prop :=
  ∀ labels, labels ∈ p.fresh ↔ (p.forest.chart.find? span labels).isSome

theorem apply_grows {p : SpanProgress} (wf : p.forest.WellFormed) (span : Span)
    {a : Application} (grounded : a.Grounded p.forest.chart) :
    p.forest.Grows [(span, a)] (apply span p a).forest := by
  obtain ⟨id, isNew, f', result, shares⟩ := Forest.findOrAdd_shares wf span a.rule.head
  have after : (apply span p a).forest = { f' with graph := f'.graph.pushEdge (a.edge id) } := by
    simp only [apply, result]
  rw [after]
  obtain ⟨keys, keyed⟩ := shares.wellFormed.keyed
  refine ⟨⟨⟨keys, keyed.pushEdge _⟩, ?_⟩, shares.words, shares.distinct,
    shares.find?_of, ?_, ?_⟩
  · refine shares.wellFormed.indexed.pushEdge (shares.wellFormed.lt_size shares.find?_key) ?_
    intro t member
    obtain ⟨s, l, found⟩ := grounded t member
    exact shares.wellFormed.lt_size (shares.find?_of found)
  · intro s l
    simp only [List.mem_singleton, exists_eq_left]
    by_cases key : s = span ∧ l = a.rule.head
    · rw [key.1, key.2, shares.find?_key]
      exact iff_of_true rfl (.inr ⟨rfl, rfl⟩)
    · rw [shares.find?_other key]
      exact (or_iff_left fun same => key ⟨same.1.symm, same.2.symm⟩).symm
  · have edge : a.edgeIn? f'.chart span = some (a.edge id) := by
      rw [Application.edgeIn?, shares.find?_key]
      rfl
    simp [shares.edges, edge, Application.edge]

/-- The head of an application has its old node, or the next one. -/
theorem find?_head_apply (p : SpanProgress) (span : Span) (a : Application) :
    (apply span p a).forest.chart.find? span a.rule.head =
      some ((p.forest.chart.find? span a.rule.head).getD p.forest.graph.nodes.size) := by
  simp only [apply, Forest.findOrAdd]
  split
  · next found => simp [found]
  · next missing => simp [missing, Chart.find?_insert missing]

/-- At most one tuple is added at the end of the new ones. -/
theorem fresh_apply (p : SpanProgress) (span : Span) (a : Application) :
    p.fresh <+: (apply span p a).fresh ∧
      (apply span p a).fresh.length ≤ p.fresh.length + 1 := by
  simp only [apply]
  split <;> simp

theorem apply_tracks {p : SpanProgress} (wf : p.forest.WellFormed) {span : Span}
    (tracks : p.Tracks span) {a : Application} (grounded : a.Grounded p.forest.chart) :
    (apply span p a).Tracks span := by
  intro labels
  rw [(apply_grows wf span grounded).isSome_iff, ← tracks]
  obtain ⟨id, isNew, f', result, shares⟩ := Forest.findOrAdd_shares wf span a.rule.head
  have fresh : (apply span p a).fresh =
      if isNew then p.fresh ++ [a.rule.head] else p.fresh := by
    simp only [apply, result]
  rw [fresh]
  split
  · simp [eq_comm]
  · next old =>
      have present : a.rule.head ∈ p.fresh := by
        rw [tracks, Option.isSome_iff_ne_none]
        exact fun missing => old (shares.new_iff.2 missing)
      simp only [List.mem_singleton, exists_eq_left, true_and]
      exact ⟨.inl, fun h => h.elim (fun old => old) fun same => same ▸ present⟩

/-- Applying a list of applications, each with nodes of the forest for tails. -/
theorem foldl_apply_grows (span : Span) {as : List Application} {p : SpanProgress}
    (wf : p.forest.WellFormed) (grounded : ∀ a ∈ as, a.Grounded p.forest.chart) :
    p.forest.Grows (as.map (span, ·)) (as.foldl (apply span) p).forest := by
  induction as generalizing p with
  | nil => exact .refl wf
  | cons a as ih =>
      have first := apply_grows wf span (grounded a List.mem_cons_self)
      have rest := ih first.wellFormed fun b member =>
        (grounded b (List.mem_cons_of_mem _ member)).mono first
      exact first.trans rest

theorem foldl_apply_tracks {span : Span} {as : List Application} {p : SpanProgress}
    (wf : p.forest.WellFormed) (tracks : p.Tracks span)
    (grounded : ∀ a ∈ as, a.Grounded p.forest.chart) :
    (as.foldl (apply span) p).Tracks span := by
  induction as generalizing p with
  | nil => exact tracks
  | cons a as ih =>
      have here := grounded a List.mem_cons_self
      have first := apply_grows wf span here
      exact ih first.wellFormed (apply_tracks wf tracks here) fun b member =>
        (grounded b (List.mem_cons_of_mem _ member)).mono first

end SpanProgress

end PackedForest
