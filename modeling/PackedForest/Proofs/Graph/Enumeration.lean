import PackedForest.Proofs.Graph.Counting
import PackedForest.Proofs.Graph.Memo
import PackedForest.Proofs.Graph.Replay
import PackedForest.Proofs.Graph.Built

/-!
# The enumeration of derivations

With a limit, the enumeration keeps the first derivations of each node only, and multiplies these.
Nothing is missing at the end: the first picks need no more than the first alternatives of each
tail. So it comes to the first derivations of the unfolding.

Where probabilities are checked, it comes to the same or stops with the fault of an edge of the
graph that has no probability.
-/

namespace PackedForest

/-- The fault of an edge that a node leads to and whose probability is out of range. -/
def Graph.Improbable (g : Graph) (id : NodeId) (fault : Fault) : Prop :=
  ∃ e ∈ g.edges.toList, Reachability.Leads g.links id e.head ∧
    isProbability e.probability = false ∧ fault = .improbableEdge e.id e.probability

/-- How an enumeration may stop: not at all, unless probabilities are checked. -/
def Graph.stops (g : Graph) (check : Bool) (id : NodeId) : Stops (Except Fault) :=
  .withFault fun fault => check = true ∧ g.Improbable id fault

/-- What is below a tail is below the head. -/
theorem Graph.stops_tail {g : Graph} (coherent : g.Coherent) {check : Bool} {id : NodeId}
    {e : Edge} (building : e ∈ g.edgesOf id) {t : NodeId} (tail : t ∈ e.tails) {α : Type}
    {x : Except Fault α} : (g.stops check t).At x → (g.stops check id).At x := by
  rintro ⟨fault, ⟨checked, other, stored, below, improbable, named⟩, rfl⟩
  obtain ⟨here, head⟩ := coherent.mem_edgesOf building
  have link := linked_iff.2 ⟨e, here, head, tail⟩
  exact ⟨fault, ⟨checked, other, stored, .head link below, improbable, named⟩, rfl⟩

namespace Graph

section Limited

variable {g : Graph} (indexed : g.Indexed) (acyclic : g.Acyclic)

/-- The first derivations of a node. A node without edges has its one derivation at any limit. -/
def limited (limit : Nat) (id : NodeId) : List Derivation :=
  if (g.edgesOf id).isEmpty then unfold indexed acyclic id
  else (unfold indexed acyclic id).take limit

theorem limited_eq_take {limit : Nat} (positive : 0 < limit) {id : NodeId}
    (known : id < g.nodes.size) :
    limited indexed acyclic limit id = (unfold indexed acyclic id).take limit := by
  obtain ⟨node, here⟩ : ∃ node, g.nodes[id]? = some node :=
    ⟨_, Array.getElem?_eq_getElem known⟩
  unfold limited
  split
  · next bare =>
      have unlisted := (indexed.edgesOf_eq_nil_iff here).1 (List.isEmpty_iff.1 bare)
      rw [unfold_eq indexed acyclic here, if_pos (List.isEmpty_iff.2 unlisted)]
      exact (List.take_of_length_le positive).symm
  · rfl

theorem of_mem_limited {limit : Nat} {id : NodeId} {d : Derivation}
    (listed : d ∈ limited indexed acyclic limit id) : d.Of g id := by
  unfold limited at listed
  split at listed
  · exact (mem_unfold indexed acyclic).1 listed
  · exact (mem_unfold indexed acyclic).1 (List.mem_of_mem_take listed)

/-- The derivations by one edge. -/
def byEdge (node : Node) (e : Edge) : List Derivation :=
  (picks (e.tails.map (unfold indexed acyclic))).map (.step node e)

theorem foldl_byEdge {limit : Nat} {id : NodeId} {node : Node}
    (here : g.nodes[id]? = some node) (listed : node.edges ≠ []) :
    (g.edgesOf id).foldl (fun found e => if limit ≤ found.length then found
      else found ++ (byEdge indexed acyclic node e).take (limit - found.length)) [] =
      limited indexed acyclic limit id := by
  have some_edge : g.edgesOf id ≠ [] := mt (indexed.edgesOf_eq_nil_iff here).1 listed
  rw [foldl_append_take _ _ (Nat.zero_le limit), List.nil_append, limited,
    if_neg (mt List.isEmpty_iff.1 some_edge), unfold_eq indexed acyclic here,
    if_neg (mt List.isEmpty_iff.1 listed)]
  rfl

end Limited

end Graph

theorem Edge.checkedProbability_cases (e : Edge) (check : Bool) :
    e.checkedProbability check = .ok e.probability ∨
      check = true ∧ isProbability e.probability = false ∧
        e.checkedProbability check = .error (.improbableEdge e.id e.probability) := by
  unfold checkedProbability
  split
  · next refused => exact .inr ⟨by simp_all, by simp_all, rfl⟩
  · exact .inl rfl

namespace Derivation

open PackedForest.Graph

/-- The derivations by one edge, at most as many as there is room for. -/
def madeBy (room : Nat) (node : Node) (e : Edge) (below : List (List Derivation)) :
    List Derivation :=
  (if e.tails.isEmpty then [[]] else (selections below).take room).map (step node e)

theorem byEdge_cases (check : Bool) (room : Nat) (node : Node) (e : Edge)
    (below : List (List Derivation)) :
    byEdge check room node e below = .ok (madeBy room node e below) ∨
      check = true ∧ isProbability e.probability = false ∧
        byEdge check room node e below = .error (.improbableEdge e.id e.probability) := by
  unfold byEdge madeBy
  generalize (if e.tails.isEmpty then [[]] else (selections below).take room) = picked
  dsimp only
  rcases e.checkedProbability_cases check with fine | ⟨checked, improbable, refused⟩
  · rw [fine]
    split
    · exact .inl rfl
    · exact .inl rfl
  · rw [refused]
    split
    · exact .inr ⟨checked, improbable, rfl⟩
    · exact .inl rfl

/-- The fault of an edge of a node is one that the node may stop with. -/
theorem byEdge_stops {g : Graph} (coherent : g.Coherent) (check : Bool) (room : Nat) (node : Node)
    {id : NodeId} {e : Edge} (building : e ∈ g.edgesOf id) (below : List (List Derivation)) :
    byEdge check room node e below = .ok (madeBy room node e below) ∨
      (g.stops check id).At (byEdge check room node e below) := by
  refine (byEdge_cases check room node e below).imp_right ?_
  rintro ⟨checked, improbable, refused⟩
  obtain ⟨stored, rfl⟩ := coherent.mem_edgesOf building
  exact ⟨_, ⟨checked, e, stored, .refl, improbable, rfl⟩, refused⟩

variable {g : Graph} (indexed : g.Indexed) (acyclic : g.Acyclic)

theorem byEdge_computes (check : Bool) {limit room : Nat} (positive : 0 < room)
    (fewer : room ≤ limit) (node : Node) {id : NodeId} {e : Edge} (building : e ∈ g.edgesOf id)
    (P : Memo → Prop) :
    Computes (g.stops check id) P
      (liftM (byEdge check room node e (e.tails.map (limited indexed acyclic limit))))
      ((Graph.byEdge indexed acyclic node e).take room) P := by
  have picked : (if e.tails.isEmpty then [[]]
      else (selections (e.tails.map (limited indexed acyclic limit))).take room) =
        (picks (e.tails.map (unfold indexed acyclic))).take room := by
    cases tails : e.tails with
    | nil => exact (List.take_of_length_le positive).symm
    | cons t ts =>
        have cut : e.tails.map (limited indexed acyclic limit) =
            (e.tails.map (unfold indexed acyclic)).map (List.take limit) := by
          rw [List.map_map]
          exact List.map_congr_left fun t listed => limited_eq_take indexed acyclic
            (Nat.lt_of_lt_of_le positive fewer) (indexed.tail_known building listed)
        rw [tails] at cut
        rw [selections_of_ne_nil (by simp), cut, take_picks_map_take fewer]
        rfl
  have made : madeBy room node e (e.tails.map (limited indexed acyclic limit)) =
      (Graph.byEdge indexed acyclic node e).take room := by
    rw [madeBy, picked, Graph.byEdge, ← List.map_take]
  rw [← made]
  exact .lift (byEdge_stops indexed.coherent check room node building _)

theorem enumerate_computes (check : Bool) (limit fuel : Nat) {path : List NodeId} {id : NodeId}
    (known : id < g.nodes.size) (below : ∀ node ∈ path, g.depth id < g.depth node)
    (enough : g.depth id < fuel) :
    Computes (g.stops check id) (MemoOf (limited indexed acyclic limit) path)
      (enumerate g check limit fuel id) (limited indexed acyclic limit id)
      (MemoOf (limited indexed acyclic limit) path) := by
  induction fuel generalizing path id with
  | zero => exact absurd enough (Nat.not_lt_zero _)
  | succ fuel ih =>
      have new : id ∉ path := fun member => Nat.lt_irrefl _ (below id member)
      obtain ⟨node, here⟩ : ∃ node, g.nodes[id]? = some node :=
        ⟨_, Array.getElem?_eq_getElem known⟩
      rw [enumerate]
      refine .get_bind fun memo holds => ?_
      cases entry : memo[id]? with
      | some found =>
          rw [holds id new found entry]
          exact .pure _
      | none =>
          have found : g.node id = .ok node := by rw [Graph.node, here]
          refine .bind (.lift (.inl found)) ?_
          split
          · next bare =>
              have none := (indexed.edgesOf_eq_nil_iff here).2 (List.isEmpty_iff.1 bare)
              have only : limited indexed acyclic limit id = [leaf node] := by
                rw [limited, if_pos (List.isEmpty_iff.2 none), unfold_eq indexed acyclic here,
                  if_pos bare]
              rw [only]
              exact .pure _
          · next some_edge =>
              refine .bind (.modify fun _ holds => holds.enter id []) (.bind
                (a := limited indexed acyclic limit id) ?_ (.bind (.modify fun _ => MemoOf.leave)
                  (.pure _)))
              rw [← foldl_byEdge indexed acyclic here (mt List.isEmpty_iff.2 some_edge)]
              refine .foldlM (fun found e building => ?_) []
              split
              · exact .pure _
              · next room =>
                  refine .bind (.mapM fun t tail =>
                    (ih ?_ ?_ ?_).mono_stops (stops_tail indexed.coherent building tail))
                    (.bind (byEdge_computes indexed acyclic check (by omega) (Nat.sub_le ..) node
                      building _) (.pure _))
                  · exact indexed.tail_known building tail
                  · exact below_tail indexed (indexed.ranked_depth acyclic) below building tail
                  · exact Nat.lt_of_lt_of_le (depth_lt indexed acyclic building tail)
                      (Nat.le_of_lt_succ enough)

end Derivation

namespace Graph

variable {g : Graph} (indexed : g.Indexed) (acyclic : g.Acyclic)

/-- Up to a limit the derivations are the first of the unfolding. Where probabilities are checked,
a fault may come instead. -/
theorem derivations_cases (check : Bool) {id : NodeId} (known : id < g.nodes.size)
    (limit : Nat) : g.derivations check id limit = .ok (limited indexed acyclic limit id) ∨
      check = true ∧ ∃ fault, g.Improbable id fault ∧
        g.derivations check id limit = .error fault := by
  have enough : g.depth id < g.nodes.size + 1 := Nat.lt_succ_of_le (g.depth_le id)
  have computes := Derivation.enumerate_computes indexed acyclic check limit _ known
    (fun _ inside => absurd inside List.not_mem_nil) enough ∅ (.empty _ [])
  unfold derivations
  rcases computes with ⟨memo, runs, -⟩ | ⟨fault, ⟨checked, improbable⟩, stopped⟩
  · rw [runs]
    exact .inl rfl
  · rw [stopped]
    exact .inr ⟨checked, fault, improbable, rfl⟩

/-- The edges of the derivations, in the order of the unfolding. -/
theorem map_edges_unfold {id : NodeId} (known : id < g.nodes.size) :
    (unfold indexed acyclic id).map Derivation.edges =
      if (g.edgesOf id).isEmpty then [[]]
      else (g.edgesOf id).flatMap fun e =>
        (picks (e.tails.map fun t => (unfold indexed acyclic t).map Derivation.edges)).map
          fun pick => e :: pick.flatten := by
  obtain ⟨node, here⟩ : ∃ node, g.nodes[id]? = some node :=
    ⟨_, Array.getElem?_eq_getElem known⟩
  have bare := indexed.edgesOf_eq_nil_iff here
  rw [unfold_eq indexed acyclic here]
  simp only [List.isEmpty_iff, bare]
  split
  · rfl
  · rw [List.map_flatMap]
    refine List.flatMap_congr fun e _ => ?_
    have edges_of : e.tails.map (fun t => (unfold indexed acyclic t).map Derivation.edges) =
        (e.tails.map (unfold indexed acyclic)).map (List.map Derivation.edges) := by
      rw [List.map_map]
      rfl
    rw [edges_of, picks_map, List.map_map, List.map_map]
    refine List.map_congr_left fun below _ => ?_
    exact congrArg (e :: ·) (Derivation.edgesBelow_eq below)

end Graph

/-- In a graph that was built step by step and has no cycle, the edge sequences of a node are told
by recursion. The derivations up to a limit have the first of these, each once, and the count is
their number, as far as numbers go. Where probabilities are checked, the fault of an edge below the
node may come instead. -/
theorem Graph.Built.enumerates {g : Graph} (built : g.Built) (acyclic : g.Acyclic) :
    ∃ sequences : NodeId → List (List Edge),
      (∀ id < g.nodes.size, sequences id =
        if (g.edgesOf id).isEmpty then [[]]
        else (g.edgesOf id).flatMap fun e =>
          (picks (e.tails.map sequences)).map fun pick => e :: pick.flatten) ∧
      ∀ id < g.nodes.size,
        g.derivationCount id = .ok (min (sequences id).length countLimit) ∧
        ∀ limit, 1 ≤ limit → ∃ ds,
          g.derivations false id limit = .ok ds ∧
          ds.map Derivation.edges = (sequences id).take limit ∧
          (ds.map fun d => d.edges.map (·.id)).Nodup ∧
          (g.derivations true id limit = .ok ds ∨
            ∃ fault, g.Improbable id fault ∧ g.derivations true id limit = .error fault) := by
  have indexed := built.indexed
  refine ⟨fun id => (unfold indexed acyclic id).map Derivation.edges,
    fun id known => map_edges_unfold indexed acyclic known, fun id known => ⟨?_, ?_⟩⟩
  · rw [derivationCount_eq indexed acyclic known, count, List.length_map]
  · intro limit positive
    refine ⟨limited indexed acyclic limit id, ?_, ?_, ?_, ?_⟩
    · exact (derivations_cases indexed acyclic false known limit).resolve_right
        fun stopped => Bool.noConfusion stopped.1
    · rw [limited_eq_take indexed acyclic positive known, List.map_take]
    · rw [limited_eq_take indexed acyclic positive known]
      refine ((nodup_unfold indexed acyclic id).sublist (List.take_sublist ..)).map_on ?_
      intro d first d' second same
      exact eq_of_map_id_eq indexed ((mem_unfold indexed acyclic).1 (List.mem_of_mem_take first))
        ((mem_unfold indexed acyclic).1 (List.mem_of_mem_take second)) same
    · exact (derivations_cases indexed acyclic true known limit).imp_right And.right

/-- A word with an edge whose probability is out of range. -/
def improbableGraph : Graph :=
  (Graph.ofWords [0]).pushEdge { EdgeRecord.new 0 with probability := 2.0 }

theorem improbableGraph_built : improbableGraph.Built :=
  Graph.Built.pushEdge (.ofWords [0]) rfl (by decide) (by decide)

/-- The check of probabilities stops at an edge that would be used. -/
theorem Graph.derivations_improbable : improbableGraph.Built ∧ improbableGraph.Acyclic ∧
    0 < improbableGraph.nodes.size ∧
    improbableGraph.derivations true 0 1 = .error (.improbableEdge 0 2.0) :=
  ⟨improbableGraph_built,
    Ranked.acyclic (show improbableGraph.Ranked fun _ => 0 by unfold Ranked; decide +kernel),
    by decide, rfl⟩

/-- The word with a second edge, and a pair of two such words. -/
def pairGraph : Graph :=
  ((improbableGraph.pushEdge (.new 0)).pushNode (.new 1 ⟨0, 2⟩)).pushEdge
    { EdgeRecord.new 1 with tails := [0, 0] }

theorem pairGraph_built : pairGraph.Built := by
  have word := improbableGraph_built.pushEdge (r := .new 0) rfl (by decide) (by decide)
  exact (word.pushNode (r := .new 1 ⟨0, 2⟩) rfl rfl).pushEdge rfl (by decide) (by decide)

/-- Of the four derivations of the pair, the one with the second word twice is the last. -/
theorem Graph.Built.enumerates_pair : pairGraph.Built ∧ pairGraph.Acyclic ∧
    1 < pairGraph.nodes.size ∧ pairGraph.derivationCount 1 = .ok 4 ∧
    ∃ ds, pairGraph.derivations false 1 3 = .ok ds ∧
      ds.map (fun d => d.edges.map (·.id)) = [[2, 0, 0], [2, 1, 0], [2, 0, 1]] := by
  have acyclic : pairGraph.Acyclic :=
    Ranked.acyclic (show pairGraph.Ranked fun id => id by unfold Ranked; decide +kernel)
  obtain ⟨sequences, told, enumerated⟩ := enumerates pairGraph_built acyclic
  obtain ⟨counted, listed⟩ := enumerated 1 (by decide)
  obtain ⟨ds, derived, first, -⟩ := listed 3 (by decide)
  have word : sequences 0 = (pairGraph.edgesOf 0).map fun e => [e] :=
    (told 0 (by decide)).trans rfl
  have pair : sequences 1 = (pairGraph.edgesOf 1).flatMap fun e =>
      (picks [sequences 0, sequences 0]).map fun pick => e :: pick.flatten :=
    (told 1 (by decide)).trans rfl
  rw [word] at pair
  rw [pair] at counted first
  refine ⟨pairGraph_built, acyclic, by decide, counted.trans rfl, ds, derived, ?_⟩
  calc ds.map (fun d => d.edges.map (·.id))
      = (ds.map Derivation.edges).map (List.map (·.id)) := by rw [List.map_map]; rfl
    _ = [[2, 0, 0], [2, 1, 0], [2, 0, 1]] := by rw [first]; rfl

end PackedForest
