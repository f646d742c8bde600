import Mathlib.Data.List.Forall2
import Mathlib.Data.List.Nodup
import PackedForest.Graph.Basic

/-!
# The two stores of a graph

Nodes and edges are kept in two arrays that refer to each other: an edge names its head and its
tails, and a node lists the edges that build it. `Graph.Indexed` states that the two agree. A
number is the place in its array, and the list of a node holds exactly the numbers of the edges
whose head it is, in increasing order.

Adding a node without edges, or an edge between nodes of the graph, keeps the agreement.

`Graph.Coherent` asks for less: the lists hold the numbers they should hold, in whatever order and
however often. It is all that a walk along the edges needs.
-/

namespace PackedForest.Graph

/-- The numbers of the edges that build a node, read off the edges alone. -/
def building (g : Graph) (id : NodeId) : List EdgeId :=
  (List.range g.edges.size).filter fun j => g.edges[j]?.any (·.head = id)

/-- Numbers are places, every list of edges is the one the edges call for, and every edge joins
nodes of the graph. -/
structure Indexed (g : Graph) : Prop where
  node_id : ∀ {i : NodeId} {n : Node}, g.nodes[i]? = some n → n.id = i
  node_edges : ∀ {i : NodeId} {n : Node}, g.nodes[i]? = some n → n.edges = g.building i
  edge_id : ∀ {j : EdgeId} {e : Edge}, g.edges[j]? = some e → e.id = j
  head_lt : ∀ {j : EdgeId} {e : Edge}, g.edges[j]? = some e → e.head < g.nodes.size
  tail_lt : ∀ {j : EdgeId} {e : Edge}, g.edges[j]? = some e → ∀ t ∈ e.tails, t < g.nodes.size

/-- Numbers are places, nodes list edges that they head, each edge is listed on its head, and the
tails of edges are nodes of the graph. -/
structure Coherent (g : Graph) : Prop where
  node_id : ∀ {i : NodeId} {n : Node}, g.nodes[i]? = some n → n.id = i
  edge_id : ∀ {j : EdgeId} {e : Edge}, g.edges[j]? = some e → e.id = j
  listed : ∀ {i : NodeId} {n : Node}, g.nodes[i]? = some n → ∀ j ∈ n.edges,
    ∃ e, g.edges[j]? = some e ∧ e.head = i
  headed : ∀ {j : EdgeId} {e : Edge}, g.edges[j]? = some e →
    ∃ head, g.nodes[e.head]? = some head ∧ j ∈ head.edges
  tail_lt : ∀ {j : EdgeId} {e : Edge}, g.edges[j]? = some e → ∀ t ∈ e.tails, t < g.nodes.size

/-- The probability of each edge is one. -/
def Probable (g : Graph) : Prop := ∀ e ∈ g.edges.toList, isProbability e.probability = true

/-- The number of an edge stands once on the list of its head, and on no other list. -/
def ListedOnce (g : Graph) (j : EdgeId) : Prop :=
  ∃ e head, g.edges[j]? = some e ∧ g.nodes[e.head]? = some head ∧ head.edges.count j = 1 ∧
    ∀ {i : NodeId} {n : Node}, g.nodes[i]? = some n → j ∈ n.edges → i = e.head

theorem mem_building {g : Graph} {i : NodeId} {j : EdgeId} :
    j ∈ g.building i ↔ ∃ e, g.edges[j]? = some e ∧ e.head = i := by
  rw [building, List.mem_filter, List.mem_range, Option.any_eq_true]
  simp only [decide_eq_true_eq]
  refine and_iff_right_of_imp ?_
  rintro ⟨e, edge, -⟩
  exact (Array.getElem?_eq_some_iff.1 edge).1

theorem sorted_building (g : Graph) (i : NodeId) : (g.building i).Pairwise (· < ·) :=
  List.pairwise_lt_range.filter _

section Push

variable (g : Graph)

@[simp] theorem words_pushNode (r : NodeRecord) : (g.pushNode r).words = g.words := rfl

@[simp] theorem edges_pushNode (r : NodeRecord) : (g.pushNode r).edges = g.edges := rfl

@[simp] theorem size_nodes_pushNode (r : NodeRecord) :
    (g.pushNode r).nodes.size = g.nodes.size + 1 := by
  simp [pushNode]

theorem getElem?_nodes_pushNode (r : NodeRecord) (i : NodeId) :
    (g.pushNode r).nodes[i]? =
      if i = g.nodes.size then some (r.numbered g.nodes.size) else g.nodes[i]? := by
  simp only [pushNode, Array.getElem?_push]

@[simp] theorem words_pushEdge (r : EdgeRecord) : (g.pushEdge r).words = g.words := rfl

@[simp] theorem edges_pushEdge (r : EdgeRecord) :
    (g.pushEdge r).edges = g.edges.push (r.numbered g.edges.size) := rfl

@[simp] theorem size_nodes_pushEdge (r : EdgeRecord) :
    (g.pushEdge r).nodes.size = g.nodes.size := by
  simp [pushEdge]

theorem getElem?_nodes_pushEdge (r : EdgeRecord) (i : NodeId) :
    (g.pushEdge r).nodes[i]? = g.nodes[i]?.map fun n =>
      if r.head = i then { n with edges := n.edges ++ [g.edges.size] } else n := by
  simp only [pushEdge, Array.getElem?_modify]
  split <;> simp

@[simp] theorem building_pushNode (r : NodeRecord) (i : NodeId) :
    (g.pushNode r).building i = g.building i := rfl

theorem building_pushEdge (r : EdgeRecord) (i : NodeId) :
    (g.pushEdge r).building i = g.building i ++ if r.head = i then [g.edges.size] else [] := by
  have old : (List.range g.edges.size).filter
      (fun j => (g.edges.push (r.numbered g.edges.size))[j]?.any (·.head = i)) =
      g.building i := by
    apply List.filter_congr
    intro j hj
    rw [Array.getElem?_push, if_neg (Nat.ne_of_lt (List.mem_range.1 hj))]
  rw [building, edges_pushEdge, Array.size_push, List.range_succ, List.filter_append, old]
  by_cases here : r.head = i <;> simp [here, EdgeRecord.numbered]

/-- A node with other contents. Its number and its edges stay. -/
def rewriteNode (id : NodeId) (f : Node → Node) : Graph :=
  { g with nodes := g.nodes.modify id fun n => { f n with id := n.id, edges := n.edges } }

theorem getElem?_rewriteNode (id : NodeId) (f : Node → Node) (i : NodeId) :
    (g.rewriteNode id f).nodes[i]? = g.nodes[i]?.map fun n =>
      if id = i then { f n with id := n.id, edges := n.edges } else n := by
  rw [rewriteNode, Array.getElem?_modify]
  split <;> simp

variable {g}

theorem node_of_pushNode {r : NodeRecord} {i : NodeId} {n : Node}
    (node : (g.pushNode r).nodes[i]? = some n) :
    i = g.nodes.size ∧ n = r.numbered g.nodes.size ∨ g.nodes[i]? = some n := by
  rw [getElem?_nodes_pushNode] at node
  split at node
  · next new => exact .inl ⟨new, (Option.some.inj node).symm⟩
  · exact .inr node

theorem edge_of_pushEdge {r : EdgeRecord} {j : EdgeId} {e : Edge}
    (edge : (g.pushEdge r).edges[j]? = some e) :
    j = g.edges.size ∧ e = r.numbered g.edges.size ∨ g.edges[j]? = some e := by
  rw [edges_pushEdge, Array.getElem?_push] at edge
  split at edge
  · next new => exact .inl ⟨new, (Option.some.inj edge).symm⟩
  · exact .inr edge

theorem edge_pushEdge {j : EdgeId} {e : Edge} (edge : g.edges[j]? = some e) (r : EdgeRecord) :
    (g.pushEdge r).edges[j]? = some e := by
  have inside := (Array.getElem?_eq_some_iff.1 edge).1
  rw [edges_pushEdge, Array.getElem?_push, if_neg (Nat.ne_of_lt inside), edge]

/-- Rewriting leaves the numbers of nodes and their lists. -/
theorem node_of_rewriteNode {id i : NodeId} {f : Node → Node} {n : Node}
    (node : (g.rewriteNode id f).nodes[i]? = some n) :
    ∃ m, g.nodes[i]? = some m ∧ n.id = m.id ∧ n.edges = m.edges := by
  rw [getElem?_rewriteNode, Option.map_eq_some_iff] at node
  obtain ⟨m, old, rfl⟩ := node
  refine ⟨m, old, ?_⟩
  split
  · exact ⟨rfl, rfl⟩
  · exact ⟨rfl, rfl⟩

theorem node_rewriteNode {i : NodeId} {m : Node} (node : g.nodes[i]? = some m) (id : NodeId)
    (f : Node → Node) : ∃ n, (g.rewriteNode id f).nodes[i]? = some n ∧ n.edges = m.edges := by
  refine ⟨_, (getElem?_rewriteNode g id f i).trans (congrArg _ node), ?_⟩
  split
  · rfl
  · rfl

end Push

namespace Coherent

variable {g : Graph} (h : g.Coherent)

include h

/-- Each number on the list of a node is that of an edge. -/
theorem forall₂_edgesOf {id : NodeId} {node : Node} (here : g.nodes[id]? = some node) :
    List.Forall₂ (fun j e => g.edges[j]? = some e) node.edges (g.edgesOf id) := by
  have edges_eq : g.edgesOf id = node.edges.filterMap (g.edges[·]?) := by rw [edgesOf, here]
  have found : ∀ j ∈ node.edges, ∃ e, g.edges[j]? = some e := fun j listed =>
    (h.listed here j listed).imp fun _ edge => edge.1
  rw [edges_eq]
  generalize node.edges = js at found
  induction js with
  | nil => exact .nil
  | cons j js ih =>
      obtain ⟨⟨e, edge⟩, later⟩ := List.forall_mem_cons.1 found
      rw [List.filterMap_cons_some edge]
      exact .cons edge (ih later)

/-- A node has no edges only if its list is empty. -/
theorem edgesOf_eq_nil_iff {id : NodeId} {node : Node} (here : g.nodes[id]? = some node) :
    g.edgesOf id = [] ↔ node.edges = [] := by
  rw [← List.length_eq_zero_iff, ← (h.forall₂_edgesOf here).length_eq, List.length_eq_zero_iff]

/-- The edges that a node lists are edges of the graph under this head. -/
theorem mem_edgesOf {id : NodeId} {e : Edge} (member : e ∈ g.edgesOf id) :
    e ∈ g.edges.toList ∧ e.head = id := by
  unfold edgesOf at member
  split at member
  · next n node =>
      obtain ⟨j, listed, edge⟩ := List.mem_filterMap.1 member
      obtain ⟨e', edge', head⟩ := h.listed node j listed
      cases edge.symm.trans edge'
      exact ⟨Array.mem_toList_iff.2 (Array.mem_of_getElem? edge), head⟩
  · cases member

theorem getElem?_id {e : Edge} (stored : e ∈ g.edges.toList) : g.edges[e.id]? = some e := by
  obtain ⟨j, here⟩ := List.mem_iff_getElem?.1 stored
  rw [Array.getElem?_toList] at here
  rw [h.edge_id here, here]

theorem tail_known {id : NodeId} {e : Edge} (building : e ∈ g.edgesOf id) {t : NodeId}
    (listed : t ∈ e.tails) : t < g.nodes.size :=
  h.tail_lt (h.getElem?_id (h.mem_edgesOf building).1) t listed

/-- A number is listed under the head of its edge only. -/
theorem head_eq {j : EdgeId} {e : Edge} (edge : g.edges[j]? = some e) {i : NodeId} {n : Node}
    (node : g.nodes[i]? = some n) (listed : j ∈ n.edges) : i = e.head := by
  obtain ⟨e', edge', head⟩ := h.listed node j listed
  rw [← head, Option.some.inj (edge.symm.trans edge')]

/-- What is left for every edge to be listed once is that no list repeats a number. -/
theorem listedOnce_iff :
    (∀ j < g.edges.size, g.ListedOnce j) ↔ ∀ n ∈ g.nodes.toList, n.edges.Nodup := by
  constructor
  · intro once n member
    obtain ⟨i, node⟩ := List.mem_iff_getElem?.1 member
    rw [Array.getElem?_toList] at node
    refine List.nodup_iff_count_eq_one.2 fun j listed => ?_
    obtain ⟨e, edge, rfl⟩ := h.listed node j listed
    obtain ⟨e', head, edge', there, count, -⟩ := once j (Array.getElem?_eq_some_iff.1 edge).1
    cases edge.symm.trans edge'
    cases node.symm.trans there
    exact count
  · intro nodup j inside
    have edge := Array.getElem?_eq_getElem inside
    obtain ⟨head, there, listed⟩ := h.headed edge
    have member := Array.mem_toList_iff.2 (Array.mem_of_getElem? there)
    exact ⟨_, head, edge, there, List.count_eq_one_of_mem (nodup head member) listed,
      h.head_eq edge⟩

theorem pushNode {r : NodeRecord} (fresh : r.edges = []) : (g.pushNode r).Coherent where
  node_id node := by
    rcases node_of_pushNode node with ⟨rfl, rfl⟩ | old
    · rfl
    · exact h.node_id old
  edge_id := h.edge_id
  listed node j listed := by
    rcases node_of_pushNode node with ⟨rfl, rfl⟩ | old
    · rw [NodeRecord.numbered, fresh] at listed
      cases listed
    · exact h.listed old j listed
  headed edge := by
    obtain ⟨head, there, listed⟩ := h.headed edge
    have inside := (Array.getElem?_eq_some_iff.1 there).1
    refine ⟨head, ?_, listed⟩
    rw [getElem?_nodes_pushNode, if_neg (Nat.ne_of_lt inside), there]
  tail_lt edge t member := by
    rw [size_nodes_pushNode]
    exact Nat.lt_succ_of_lt (h.tail_lt edge t member)

theorem pushEdge {r : EdgeRecord} (head : r.head < g.nodes.size)
    (tails : ∀ t ∈ r.tails, t < g.nodes.size) : (g.pushEdge r).Coherent where
  node_id node := by
    rw [getElem?_nodes_pushEdge, Option.map_eq_some_iff] at node
    obtain ⟨m, old, rfl⟩ := node
    have id_eq := h.node_id old
    split <;> exact id_eq
  edge_id edge := by
    rcases edge_of_pushEdge edge with ⟨rfl, rfl⟩ | old
    · rfl
    · exact h.edge_id old
  listed {i n} node j listed := by
    rw [getElem?_nodes_pushEdge, Option.map_eq_some_iff] at node
    obtain ⟨m, old, rfl⟩ := node
    have before : j ∈ m.edges → ∃ e, (g.pushEdge r).edges[j]? = some e ∧ e.head = i := fun member =>
      (h.listed old j member).imp fun e edge => ⟨edge_pushEdge edge.1 r, edge.2⟩
    split at listed
    · next here =>
        rcases List.mem_append.1 listed with member | new
        · exact before member
        · rw [List.mem_singleton.1 new]
          exact ⟨_, Array.getElem?_push_size, here⟩
    · exact before listed
  headed edge := by
    rcases edge_of_pushEdge edge with ⟨rfl, rfl⟩ | old
    · have there := Array.getElem?_eq_getElem head
      refine ⟨_, (getElem?_nodes_pushEdge ..).trans (congrArg _ there), ?_⟩
      simp [EdgeRecord.numbered]
    · obtain ⟨n, there, listed⟩ := h.headed old
      refine ⟨_, (getElem?_nodes_pushEdge ..).trans (congrArg _ there), ?_⟩
      split
      · exact List.mem_append_left _ listed
      · exact listed
  tail_lt edge := by
    rw [size_nodes_pushEdge]
    rcases edge_of_pushEdge edge with ⟨rfl, rfl⟩ | old
    · exact tails
    · exact h.tail_lt old

theorem setWords (words : List WordId) : Coherent { g with words } :=
  ⟨h.node_id, h.edge_id, h.listed, h.headed, h.tail_lt⟩

theorem rewriteNode (id : NodeId) (f : Node → Node) : (g.rewriteNode id f).Coherent where
  node_id node := by
    obtain ⟨m, old, id_eq, -⟩ := node_of_rewriteNode node
    exact id_eq.trans (h.node_id old)
  edge_id := h.edge_id
  listed node j listed := by
    obtain ⟨m, old, -, edges_eq⟩ := node_of_rewriteNode node
    exact h.listed old j (edges_eq ▸ listed)
  headed edge := by
    obtain ⟨head, there, listed⟩ := h.headed edge
    obtain ⟨n, here, edges_eq⟩ := node_rewriteNode there id f
    exact ⟨n, here, edges_eq.symm ▸ listed⟩
  tail_lt edge t member := by
    rw [Graph.rewriteNode, Array.size_modify]
    exact h.tail_lt edge t member

end Coherent

namespace Indexed

variable {g : Graph}

theorem empty (words : List WordId) : Indexed { Graph.empty with words } := by
  constructor <;> simp [Graph.empty]

theorem coherent (h : g.Indexed) : g.Coherent where
  node_id := h.node_id
  edge_id := h.edge_id
  listed node j listed := mem_building.1 (h.node_edges node ▸ listed)
  headed {j e} edge := by
    have head := Array.getElem?_eq_getElem (h.head_lt edge)
    exact ⟨_, head, h.node_edges head ▸ mem_building.2 ⟨e, edge, rfl⟩⟩
  tail_lt := h.tail_lt

/-- The edges that a node lists are edges of the graph under this head. -/
theorem mem_edgesOf (h : g.Indexed) {id : NodeId} {e : Edge} (member : e ∈ g.edgesOf id) :
    e ∈ g.edges.toList ∧ e.head = id := h.coherent.mem_edgesOf member

theorem building_eq_nil (h : g.Indexed) : g.building g.nodes.size = [] := by
  rw [building, List.filter_eq_nil_iff]
  intro j _
  cases edge : g.edges[j]? with
  | none => simp
  | some e => simpa using Nat.ne_of_lt (h.head_lt edge)

theorem pushNode (h : g.Indexed) {r : NodeRecord} (fresh : r.edges = []) :
    (g.pushNode r).Indexed where
  node_id := (h.coherent.pushNode fresh).node_id
  node_edges node := by
    rcases node_of_pushNode node with ⟨rfl, rfl⟩ | old
    · rw [building_pushNode, h.building_eq_nil]
      exact fresh
    · exact h.node_edges old
  edge_id := h.edge_id
  head_lt edge := by
    rw [size_nodes_pushNode]
    exact Nat.lt_succ_of_lt (h.head_lt edge)
  tail_lt := (h.coherent.pushNode fresh).tail_lt

theorem pushEdge (h : g.Indexed) {r : EdgeRecord} (head : r.head < g.nodes.size)
    (tails : ∀ t ∈ r.tails, t < g.nodes.size) : (g.pushEdge r).Indexed where
  node_id := (h.coherent.pushEdge head tails).node_id
  node_edges node := by
    rw [getElem?_nodes_pushEdge, Option.map_eq_some_iff] at node
    obtain ⟨m, old, rfl⟩ := node
    rw [building_pushEdge, ← h.node_edges old]
    split <;> simp
  edge_id := (h.coherent.pushEdge head tails).edge_id
  head_lt edge := by
    rw [size_nodes_pushEdge]
    rcases edge_of_pushEdge edge with ⟨rfl, rfl⟩ | old
    · exact head
    · exact h.head_lt old
  tail_lt := (h.coherent.pushEdge head tails).tail_lt

theorem setWords (h : g.Indexed) (words : List WordId) : Indexed { g with words } :=
  ⟨h.node_id, h.node_edges, h.edge_id, h.head_lt, h.tail_lt⟩

theorem rewriteNode (h : g.Indexed) (id : NodeId) (f : Node → Node) :
    (g.rewriteNode id f).Indexed where
  node_id := (h.coherent.rewriteNode id f).node_id
  node_edges node := by
    obtain ⟨m, old, -, edges_eq⟩ := node_of_rewriteNode node
    exact edges_eq.trans (h.node_edges old)
  edge_id := h.edge_id
  head_lt edge := by
    rw [Graph.rewriteNode, Array.size_modify]
    exact h.head_lt edge
  tail_lt := (h.coherent.rewriteNode id f).tail_lt

end Indexed

end PackedForest.Graph
