import PackedForest.Proofs.Graph.Arena

/-!
# Graphs put together step by step

`Graph.Built` holds for the graphs that come from an empty one, or from the nodes of a sentence, by
adding nodes and edges and by changing nodes. Their two stores agree, so each edge is listed once,
on its head.
-/

namespace PackedForest.Graph

/-- What graphs are made by. A step that is refused makes none. -/
inductive Built : Graph → Prop
  | empty : Built .empty
  | ofWords (words : List WordId) : Built (.ofWords words)
  | setWords {g : Graph} (words : List WordId) (built : Built g) : Built { g with words }
  | addNode {g h : Graph} {r : NodeRecord} {id : NodeId} (built : Built g)
      (added : g.addNode r = .ok (id, h)) : Built h
  | addEdge {g h : Graph} {r : EdgeRecord} {id : EdgeId} (built : Built g)
      (added : g.addEdge r = .ok (id, h)) : Built h
  | updateNode {g h : Graph} {id : NodeId} {f : Node → Node} (built : Built g)
      (changed : g.updateNode id f = .ok h) : Built h

/-- A node is added if it is new and has no edges. -/
theorem addNode_eq_ok_iff {g h : Graph} {r : NodeRecord} {id : NodeId} :
    g.addNode r = .ok (id, h) ↔ r.id = none ∧ r.edges = [] ∧ id = g.nodes.size ∧
      h = g.pushNode r := by
  unfold addNode
  cases r.id with
  | some id' => exact iff_of_false (fun added => by cases added) fun all => by cases all.1
  | none =>
      rw [and_iff_right rfl, ← List.isEmpty_iff]
      cases r.edges.isEmpty with
      | false => exact iff_of_false (fun added => by cases added) fun all => by cases all.1
      | true =>
          rw [and_iff_right rfl, if_pos rfl, Except.ok.injEq, Prod.mk.injEq, eq_comm,
            eq_comm (a := g.pushNode r)]

/-- An edge is added if it is new and joins nodes of the graph. -/
theorem addEdge_eq_ok_iff {g h : Graph} {r : EdgeRecord} {id : EdgeId} :
    g.addEdge r = .ok (id, h) ↔ r.id = none ∧ r.head < g.nodes.size ∧
      (∀ t ∈ r.tails, t < g.nodes.size) ∧ id = g.edges.size ∧ h = g.pushEdge r := by
  have inside : r.tails.find? (g.nodes.size ≤ ·) = none ↔ ∀ t ∈ r.tails, t < g.nodes.size := by
    simp
  unfold addEdge
  cases r.id with
  | some id' => exact iff_of_false (fun added => by cases added) fun all => by cases all.1
  | none =>
      rw [and_iff_right rfl, ← inside]
      cases r.tails.find? (g.nodes.size ≤ ·) with
      | some tail => exact iff_of_false (fun added => by cases added) fun all => by cases all.2.1
      | none =>
          dsimp only
          split
          · next head =>
              rw [and_iff_right head, and_iff_right rfl, Except.ok.injEq, Prod.mk.injEq, eq_comm,
                eq_comm (a := g.pushEdge r)]
          · next outside =>
              exact iff_of_false (fun added => by cases added) fun all => outside all.1

/-- A node is changed if it is a node of the graph. -/
theorem updateNode_eq_ok_iff {g h : Graph} {id : NodeId} {f : Node → Node} :
    g.updateNode id f = .ok h ↔ id < g.nodes.size ∧ h = g.rewriteNode id f := by
  unfold updateNode
  split
  · next known =>
      rw [and_iff_right known]
      exact ⟨fun changed => (Except.ok.inj changed).symm, fun same => congrArg Except.ok same.symm⟩
  · next unknown => exact iff_of_false (fun changed => by cases changed) fun all => unknown all.1

namespace Indexed

variable {g : Graph}

theorem ofWords (words : List WordId) : (ofWords words).Indexed := by
  have nodes : ∀ (places : List (WordId × Nat)) {g : Graph}, g.Indexed →
      (places.foldl (fun g word => g.pushNode (.new word.1 ⟨word.2, word.2 + 1⟩)) g).Indexed := by
    intro places
    induction places with
    | nil => exact fun h => h
    | cons word places ih => exact fun h => ih (h.pushNode rfl)
  exact (nodes words.zipIdx (.empty [])).setWords words

theorem addNode (h : g.Indexed) {k : Graph} {r : NodeRecord} {id : NodeId}
    (added : g.addNode r = .ok (id, k)) : k.Indexed := by
  obtain ⟨-, bare, -, rfl⟩ := addNode_eq_ok_iff.1 added
  exact h.pushNode bare

theorem addEdge (h : g.Indexed) {k : Graph} {r : EdgeRecord} {id : EdgeId}
    (added : g.addEdge r = .ok (id, k)) : k.Indexed := by
  obtain ⟨-, head, tails, -, rfl⟩ := addEdge_eq_ok_iff.1 added
  exact h.pushEdge head tails

theorem updateNode (h : g.Indexed) {k : Graph} {id : NodeId} {f : Node → Node}
    (changed : g.updateNode id f = .ok k) : k.Indexed := by
  obtain ⟨-, rfl⟩ := updateNode_eq_ok_iff.1 changed
  exact h.rewriteNode id f

end Indexed

theorem Built.indexed {g : Graph} (built : g.Built) : g.Indexed := by
  induction built with
  | empty => exact .empty []
  | ofWords words => exact .ofWords words
  | setWords words _ ih => exact ih.setWords words
  | addNode _ added ih => exact ih.addNode added
  | addEdge _ added ih => exact ih.addEdge added
  | updateNode _ changed ih => exact ih.updateNode changed

theorem addNode_eq_ok (g : Graph) {r : NodeRecord} (new : r.id = none) (bare : r.edges = []) :
    g.addNode r = .ok (g.nodes.size, g.pushNode r) :=
  addNode_eq_ok_iff.2 ⟨new, bare, rfl, rfl⟩

theorem addEdge_eq_ok {g : Graph} {r : EdgeRecord} (new : r.id = none)
    (head : r.head < g.nodes.size) (tails : ∀ t ∈ r.tails, t < g.nodes.size) :
    g.addEdge r = .ok (g.edges.size, g.pushEdge r) :=
  addEdge_eq_ok_iff.2 ⟨new, head, tails, rfl, rfl⟩

theorem Built.pushNode {g : Graph} (built : g.Built) {r : NodeRecord} (new : r.id = none)
    (bare : r.edges = []) : (g.pushNode r).Built :=
  .addNode built (addNode_eq_ok g new bare)

theorem Built.pushEdge {g : Graph} (built : g.Built) {r : EdgeRecord} (new : r.id = none)
    (head : r.head < g.nodes.size) (tails : ∀ t ∈ r.tails, t < g.nodes.size) :
    (g.pushEdge r).Built :=
  .addEdge built (addEdge_eq_ok new head tails)

end PackedForest.Graph
