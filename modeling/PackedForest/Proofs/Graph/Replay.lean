import PackedForest.Proofs.Graph.Unfolding

/-!
# Reading derivations back from their edges

The edges of a derivation in preorder tell what the derivation is. `Graph.replay` rebuilds the
derivations of given nodes from one list of edges: a node with edges takes the next edge of the
list, which has to build this node, and the tails of the edge come before the nodes that wait.
Written down and replayed, a derivation comes back as it was (`Graph.replay_edges`), so no two
derivations of a node have the same edges.
-/

namespace PackedForest

namespace Graph

/-- The derivations of nodes whose edges stand one after another in a list, if all of the list is
used up. -/
def replay (g : Graph) : (waiting : List NodeId) → (edges : List Edge) → Option (List Derivation)
  | [], [] => some []
  | [], _ :: _ => none
  | id :: waiting, edges =>
    match g.nodes[id]? with
    | none => none
    | some node =>
      if node.edges.isEmpty then (g.replay waiting edges).map (.leaf node :: ·)
      else
        match edges with
        | [] => none
        | e :: edges =>
          if e.head = id then
            (g.replay (e.tails ++ waiting) edges).map fun ds =>
              .step node e (ds.take e.tails.length) :: ds.drop e.tails.length
          else none
termination_by waiting edges => (edges.length, waiting.length)

end Graph

namespace Derivation

theorem edgesBelow_eq (ds : List Derivation) : edgesBelow ds = (ds.map edges).flatten := by
  induction ds with
  | nil => rfl
  | cons d ds ih => rw [edgesBelow, ih, List.map_cons, List.flatten_cons]

theorem edgesBelow_append (ds others : List Derivation) :
    edgesBelow (ds ++ others) = edgesBelow ds ++ edgesBelow others := by
  rw [edgesBelow_eq, edgesBelow_eq, edgesBelow_eq, List.map_append, List.flatten_append]

theorem edgesBelow_leaf (node : Node) (ds : List Derivation) :
    edgesBelow (.leaf node :: ds) = edgesBelow ds := rfl

theorem edgesBelow_step (node : Node) (e : Edge) (below ds : List Derivation) :
    edgesBelow (.step node e below :: ds) = e :: edgesBelow (below ++ ds) := by
  rw [edgesBelow, edges, edgesBelow_append, List.cons_append]

/-- What holds of derivations that wait side by side can be shown from the first of them on, by
putting those below it in its place. -/
theorem Of.induction {g : Graph}
    {motive : (waiting : List NodeId) → (ds : List Derivation) →
      List.Forall₂ (Of g) waiting ds → Prop}
    (nil : motive [] [] .nil)
    (leaf : ∀ {id node waiting ds} (here : g.nodes[id]? = some node) (bare : node.edges = [])
      (rest : List.Forall₂ (Of g) waiting ds), motive waiting ds rest →
      motive (id :: waiting) (.leaf node :: ds) (.cons (.leaf here bare) rest))
    (step : ∀ {id node e below waiting ds} (here : g.nodes[id]? = some node)
      (building : e ∈ g.edgesOf id) (tails : List.Forall₂ (Of g) e.tails below)
      (rest : List.Forall₂ (Of g) waiting ds),
      motive (e.tails ++ waiting) (below ++ ds) (List.rel_append tails rest) →
      motive (id :: waiting) (.step node e below :: ds) (.cons (.step here building tails) rest))
    {waiting : List NodeId} {ds : List Derivation} (derive : List.Forall₂ (Of g) waiting ds) :
    motive waiting ds derive := by
  cases derive with
  | nil => exact nil
  | cons first rest =>
      cases first with
      | leaf here bare => exact leaf here bare rest (Of.induction nil leaf step rest)
      | step here building tails =>
          exact step here building tails rest
            (Of.induction nil leaf step (List.rel_append tails rest))
termination_by ((edgesBelow ds).length, ds.length)
decreasing_by
  · rw [edgesBelow_leaf]
    exact Prod.Lex.right _ (Nat.lt_succ_self _)
  · rw [edgesBelow_step]
    exact Prod.Lex.left _ _ (Nat.lt_succ_self _)

end Derivation

namespace Graph

open PackedForest.Derivation

section Replay

variable {g : Graph}

theorem replay_bare {id : NodeId} {node : Node} (here : g.nodes[id]? = some node)
    (bare : node.edges = []) (waiting : List NodeId) (edges : List Edge) :
    g.replay (id :: waiting) edges = (g.replay waiting edges).map (.leaf node :: ·) := by
  rw [replay, here]
  dsimp only
  rw [if_pos (List.isEmpty_iff.2 bare)]

namespace Coherent

variable (coherent : g.Coherent)

include coherent

theorem replay_building {id : NodeId} {node : Node} (here : g.nodes[id]? = some node) {e : Edge}
    (building : e ∈ g.edgesOf id) (waiting : List NodeId) (edges : List Edge) :
    g.replay (id :: waiting) (e :: edges) = (g.replay (e.tails ++ waiting) edges).map fun ds =>
      .step node e (ds.take e.tails.length) :: ds.drop e.tails.length := by
  have listed : node.edges ≠ [] :=
    mt (coherent.edgesOf_eq_nil_iff here).2 (List.ne_nil_of_mem building)
  rw [replay, here]
  dsimp only
  rw [if_neg (mt List.isEmpty_iff.1 listed), if_pos (coherent.mem_edgesOf building).2]

/-- Derivations of some nodes are what their edges replay to. -/
theorem replay_edgesBelow {waiting : List NodeId} {ds : List Derivation}
    (derive : List.Forall₂ (Derivation.Of g) waiting ds) :
    g.replay waiting (edgesBelow ds) = some ds := by
  induction derive using Of.induction with
  | nil => rw [edgesBelow, replay]
  | leaf here bare _ ih =>
      rw [edgesBelow_leaf, replay_bare here bare, ih]
      rfl
  | step here building tails _ ih =>
      rw [edgesBelow_step, coherent.replay_building here building, ih, Option.map_some,
        tails.length_eq, List.take_left, List.drop_left]

theorem replay_edges {id : NodeId} {d : Derivation} (derives : d.Of g id) :
    g.replay [id] d.edges = some [d] := by
  have back := coherent.replay_edgesBelow (.cons derives .nil)
  rwa [edgesBelow, edgesBelow, List.append_nil] at back

end Coherent

variable (indexed : g.Indexed)

include indexed

theorem replay_edges {id : NodeId} {d : Derivation} (derives : d.Of g id) :
    g.replay [id] d.edges = some [d] :=
  indexed.coherent.replay_edges derives

/-- The edges of derivations are edges of the graph. -/
theorem edgesBelow_subset {waiting : List NodeId} {ds : List Derivation}
    (derive : List.Forall₂ (Derivation.Of g) waiting ds) : edgesBelow ds ⊆ g.edges.toList := by
  induction derive using Of.induction with
  | nil => exact List.nil_subset _
  | leaf _ _ _ ih => exact ih
  | step _ building _ _ ih =>
      rw [edgesBelow_step]
      exact List.cons_subset.2 ⟨(indexed.mem_edgesOf building).1, ih⟩

/-- The numbers of its edges tell a derivation of a node. -/
theorem eq_of_map_id_eq {id : NodeId} {d d' : Derivation} (derives : d.Of g id)
    (derives' : d'.Of g id) (same : d.edges.map (·.id) = d'.edges.map (·.id)) : d = d' := by
  have numbered : ∀ {d : Derivation}, d.Of g id →
      (d.edges.map (·.id)).map (g.edges[·]?) = d.edges.map some := by
    intro d derives
    have stored := edgesBelow_subset indexed (.cons derives .nil)
    rw [edgesBelow, edgesBelow, List.append_nil] at stored
    rw [List.map_map]
    exact List.map_congr_left fun e member => indexed.getElem?_id (stored member)
  have edges_eq : d.edges = d'.edges := by
    have some_eq := numbered derives
    rw [same, numbered derives'] at some_eq
    exact ((List.map_inj_right fun _ _ => Option.some.inj).1 some_eq).symm
  have back := replay_edges indexed derives
  rw [edges_eq, replay_edges indexed derives'] at back
  exact (List.singleton_inj.1 (Option.some.inj back)).symm

end Replay

end Graph

end PackedForest
