import PackedForest.Proofs.Graph.Editing
import PackedForest.Proofs.Graph.RoundTrip

/-!
# Which graphs there are

A text that is read as a forest has passed the checks, so its nodes and edges refer to each other
as those of a graph do: each edge is listed on its head and on no other node. How often it is
listed there is not asked, so a forest that is read lists every edge once if and only if no list
repeats a number (`Graph.ofJson_coherent`). Adding edges one by one never repeats one.

`Graph.Admitted` holds for the graphs that come from an empty one, or from one that is read, by
operations that add no edge but those with a probability. All of them are coherent, and their edges
have probabilities.
-/

namespace PackedForest

namespace GraphRecord

variable {r : GraphRecord}

theorem getElem?_nodes_placed {i : NodeId} {n : Node} :
    r.placed.nodes[i]? = some n ↔ ∃ m, r.nodes[i]? = some m ∧ m.numbered i = n := by
  rw [placed, Array.getElem?_mapIdx, List.getElem?_toArray, Option.map_eq_some_iff]

theorem getElem?_edges_placed {j : EdgeId} {e : Edge} :
    r.placed.edges[j]? = some e ↔ ∃ m, r.edges[j]? = some m ∧ m.numbered j = e := by
  rw [placed, Array.getElem?_mapIdx, List.getElem?_toArray, Option.map_eq_some_iff]

theorem size_nodes_placed : r.placed.nodes.size = r.nodes.length := by
  rw [placed, Array.size_mapIdx, List.size_toArray]

namespace Sound

variable (sound : r.Sound)

include sound

theorem coherent : r.placed.Coherent where
  node_id node := by
    obtain ⟨m, -, rfl⟩ := getElem?_nodes_placed.1 node
    rfl
  edge_id edge := by
    obtain ⟨m, -, rfl⟩ := getElem?_edges_placed.1 edge
    rfl
  listed node j listed := by
    obtain ⟨m, given, rfl⟩ := getElem?_nodes_placed.1 node
    obtain ⟨e, edge, head⟩ := sound.node_edges given j listed
    exact ⟨_, getElem?_edges_placed.2 ⟨e, edge, rfl⟩, head⟩
  headed edge := by
    obtain ⟨m, given, rfl⟩ := getElem?_edges_placed.1 edge
    obtain ⟨head, node, listed⟩ := sound.edge_head given
    exact ⟨_, getElem?_nodes_placed.2 ⟨head, node, rfl⟩, listed⟩
  tail_lt edge t member := by
    obtain ⟨m, given, rfl⟩ := getElem?_edges_placed.1 edge
    rw [size_nodes_placed]
    exact sound.edge_tails given t member

theorem probable : r.placed.Probable := by
  intro e member
  obtain ⟨j, edge⟩ := List.mem_iff_getElem?.1 member
  rw [Array.getElem?_toList] at edge
  obtain ⟨m, given, rfl⟩ := getElem?_edges_placed.1 edge
  exact sound.edge_probability given

end Sound

end GraphRecord

namespace Graph

/-- Only what passes the checks is read. -/
theorem sound_of_ofJson {text : List Char} {g : Graph} (read : Graph.ofJson text = .ok g) :
    ∃ r : GraphRecord, r.Sound ∧ g = r.placed := by
  unfold Graph.ofJson at read
  split at read
  · next r _ => exact ⟨r, GraphRecord.toGraph_eq_ok_iff.1 read⟩
  · cases read

/-- A forest that is read has numbers that are places, tails that are its nodes, probabilities in
range, and each edge listed on its head and nowhere else. It lists every edge once just if no list
repeats a number. -/
theorem ofJson_coherent {text : List Char} {g : Graph} (read : Graph.ofJson text = .ok g) :
    g.Coherent ∧ g.Probable ∧
      (∀ {j : EdgeId} {e : Edge}, g.edges[j]? = some e → ∀ {i : NodeId} {n : Node},
        g.nodes[i]? = some n → (j ∈ n.edges ↔ i = e.head)) ∧
      ((∀ j < g.edges.size, g.ListedOnce j) ↔ ∀ n ∈ g.nodes.toList, n.edges.Nodup) := by
  obtain ⟨r, sound, rfl⟩ := sound_of_ofJson read
  have coherent := sound.coherent
  refine ⟨coherent, sound.probable, fun edge i n node => ?_, coherent.listedOnce_iff⟩
  refine ⟨coherent.head_eq edge node, ?_⟩
  rintro rfl
  obtain ⟨head, there, listed⟩ := coherent.headed edge
  rwa [Option.some.inj (node.symm.trans there)]

/-- A node with one edge, which its list names twice. -/
def doubled : Graph where
  words := []
  nodes := #[⟨0, 0, ⟨0, 1⟩, .unset, [0, 0], none⟩]
  edges := #[⟨0, 0, [], 1.0, .empty, [], none⟩]

theorem read_doubled : Graph.ofJson doubled.toJson = .ok doubled :=
  ofJson_of_sound
    (GraphRecord.toGraph_eq_ok_iff.1 (show doubled.record.toGraph = .ok doubled from rfl)).1
    ⟨by decide, by decide, by decide, by decide +kernel, by decide +kernel⟩
    (by decide +kernel)

theorem ofJson_coherent_doubled : Graph.ofJson doubled.toJson = .ok doubled ∧ doubled.Coherent :=
  ⟨read_doubled, (ofJson_coherent read_doubled).1⟩

/-- A list that repeats a number is not refused. -/
theorem ofJson_doubled : Graph.ofJson doubled.toJson = .ok doubled ∧ ¬ doubled.ListedOnce 0 := by
  refine ⟨read_doubled, ?_⟩
  rintro ⟨e, head, edge, node, count, -⟩
  cases edge
  cases node
  cases count

/-! ### Graphs that are read or put together -/

theorem edges_ofWords (words : List WordId) : (ofWords words).edges = #[] := by
  have nodes : ∀ (places : List (WordId × Nat)) (g : Graph),
      (places.foldl (fun g word => g.pushNode (.new word.1 ⟨word.2, word.2 + 1⟩)) g).edges =
        g.edges := by
    intro places
    induction places with
    | nil => exact fun _ => rfl
    | cons word places ih => exact fun g => ih _
  exact nodes words.zipIdx .empty

namespace Edit

/-- An edge that is added has a probability. -/
def Probable : Edit → Prop
  | addEdge r => isProbability r.probability = true
  | _ => True

variable {edit : Edit} {g h : Graph}

theorem Makes.coherent (made : edit.Makes g h) (coherent : g.Coherent) : h.Coherent := by
  cases made with
  | new => exact (Indexed.empty []).coherent
  | ofWords words => exact (Indexed.ofWords words).coherent
  | setWords words => exact coherent.setWords words
  | addNode _ bare => exact coherent.pushNode bare
  | addEdge _ head tails => exact coherent.pushEdge head tails
  | writeNode f _ => exact coherent.rewriteNode _ f

theorem Makes.probable (made : edit.Makes g h) (added : edit.Probable) (probable : g.Probable) :
    h.Probable := by
  cases made with
  | new => exact fun _ member => absurd member List.not_mem_nil
  | ofWords words =>
      intro e member
      rw [edges_ofWords] at member
      cases member
  | setWords words => exact probable
  | addNode _ _ => exact probable
  | addEdge _ _ _ =>
      intro e member
      rw [edges_pushEdge, Array.toList_push, List.mem_append, List.mem_singleton] at member
      rcases member with old | rfl
      · exact probable e old
      · exact added
  | writeNode f _ => exact probable

end Edit

/-- Graphs that are read, or put together out of edges with probabilities. Operations may be
refused. -/
inductive Admitted : Graph → Prop
  | empty : Admitted .empty
  | read {text : List Char} {g : Graph} (read : Graph.ofJson text = .ok g) : Admitted g
  | edit {g : Graph} (admitted : Admitted g) {edit : Edit} (added : edit.Probable) :
      Admitted (edit.caught g)

namespace Admitted

variable {g : Graph}

theorem coherent (admitted : g.Admitted) : g.Coherent := by
  induction admitted with
  | empty => exact (Indexed.empty []).coherent
  | read read =>
      obtain ⟨r, sound, rfl⟩ := sound_of_ofJson read
      exact sound.coherent
  | @edit g _ edit _ ih =>
      rcases edit.makes_caught g with made | same
      · exact made.coherent ih
      · rwa [same]

theorem probable (admitted : g.Admitted) : g.Probable := by
  induction admitted with
  | empty => exact fun _ member => absurd member List.not_mem_nil
  | read read =>
      obtain ⟨r, sound, rfl⟩ := sound_of_ofJson read
      exact sound.probable
  | @edit g _ edit added ih =>
      rcases edit.makes_caught g with made | same
      · exact made.probable added ih
      · rwa [same]

/-- Whatever is put together out of edges with probabilities. -/
theorem edited {edits : List Edit} (added : ∀ edit ∈ edits, edit.Probable) :
    (Graph.edited edits).Admitted := by
  have run : ∀ {edits : List Edit}, (∀ edit ∈ edits, edit.Probable) → ∀ {g : Graph},
      g.Admitted → (edits.foldl Edit.caught g).Admitted := by
    intro edits
    induction edits with
    | nil => exact fun _ _ admitted => admitted
    | cons edit edits ih =>
        intro added g admitted
        obtain ⟨first, later⟩ := List.forall_mem_cons.1 added
        exact ih later (admitted.edit first)
  exact run added .empty

end Admitted

end Graph

end PackedForest
