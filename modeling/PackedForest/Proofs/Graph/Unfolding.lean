import PackedForest.Proofs.Graph.Ranked
import PackedForest.Proofs.Reachability
import PackedForest.Proofs.Selections

/-!
# Unfolding a graph

A graph shares what its derivations have in common. Without a cycle it can be unfolded: the
derivations of a node are those of its edges one after another, and those of an edge are the picks
of derivations of its tails (`Graph.unfold_eq`). They are all the derivations there are
(`Graph.mem_unfold`), and none comes twice.

The recursion goes down in depth. The depth of a node is the number of nodes that it leads to, so it
does not exceed the number of nodes of the graph.
-/

namespace PackedForest

/-- A derivation of a node: the node itself if it has no edges, or else one of its edges with a
derivation of each tail. -/
inductive Derivation.Of (g : Graph) : NodeId → Derivation → Prop
  | leaf {id : NodeId} {node : Node} (here : g.nodes[id]? = some node)
      (bare : node.edges = []) : Of g id (.leaf node)
  | step {id : NodeId} {node : Node} {e : Edge} {below : List Derivation}
      (here : g.nodes[id]? = some node) (building : e ∈ g.edgesOf id)
      (tails : List.Forall₂ (Of g) e.tails below) : Of g id (.step node e below)

/-- The derivations of the tails. -/
def Derivation.tails : Derivation → List Derivation
  | leaf _ => []
  | step _ _ below => below

namespace Derivation.Of

variable {g : Graph} {id : NodeId} {d : Derivation}

theorem known (h : d.Of g id) : g.nodes[id]? = some d.node := by
  cases h with
  | leaf here => exact here
  | step here => exact here

theorem node_id (h : d.Of g id) (coherent : g.Coherent) : d.node.id = id :=
  coherent.node_id h.known

/-- What is below is of the tails of an edge. -/
theorem exists_tail (h : d.Of g id) {b : Derivation} (under : b ∈ d.tails) :
    ∃ e ∈ g.edgesOf id, ∃ t ∈ e.tails, b.Of g t := by
  cases h with
  | leaf => cases under
  | step _ building tails =>
      obtain ⟨t, tail, derives⟩ :=
        exists_of_forall₂_left (List.Forall₂.flip (R := flip _) tails) under
      exact ⟨_, building, t, tail, derives⟩

end Derivation.Of

namespace Graph

/-- From the head of each edge a link leads to each of its tails. -/
def links (g : Graph) : List (NodeId × NodeId) :=
  g.edges.toList.flatMap fun e => e.tails.map (e.head, ·)

/-- No path along edges leads from a node back to itself. -/
def Acyclic (g : Graph) : Prop := Reachability.Acyclic g.links

theorem linked_iff {g : Graph} {a b : NodeId} :
    Reachability.Linked g.links a b ↔ ∃ e ∈ g.edges.toList, e.head = a ∧ b ∈ e.tails := by
  simp only [Reachability.Linked, links, List.mem_flatMap, List.mem_map, Prod.mk.injEq]
  constructor
  · rintro ⟨e, stored, t, listed, rfl, rfl⟩
    exact ⟨e, stored, rfl, listed⟩
  · rintro ⟨e, stored, rfl, listed⟩
    exact ⟨e, stored, b, listed, rfl, rfl⟩

theorem Ranked.acyclic {g : Graph} {rank : NodeId → Nat} (ranked : g.Ranked rank) :
    g.Acyclic := by
  have lower : ∀ {a b}, Relation.TransGen (Reachability.Linked g.links) a b →
      rank b < rank a := by
    intro a b path
    induction path with
    | single link =>
        obtain ⟨e, stored, rfl, listed⟩ := linked_iff.1 link
        exact ranked e stored _ listed
    | tail _ link ih =>
        obtain ⟨e, stored, rfl, listed⟩ := linked_iff.1 link
        exact Nat.lt_trans (ranked e stored _ listed) ih
  exact fun a cycle => Nat.lt_irrefl _ (lower cycle)

/-- The number of nodes that a node leads to, itself among them. -/
def depth (g : Graph) (id : NodeId) : Nat :=
  (List.range g.nodes.size).countP (Reachability.reaches g.links id ·)

theorem depth_le (g : Graph) (id : NodeId) : g.depth id ≤ g.nodes.size :=
  Nat.le_trans List.countP_le_length (Nat.le_of_eq List.length_range)

theorem filterMap_range_size {α : Type} (as : Array α) :
    (List.range as.size).filterMap (as[·]?) = as.toList := by
  have places : (List.range as.size).map (as[·]?) = as.toList.map some := by
    refine List.ext_getElem (by simp) fun j inside _ => ?_
    have inside : j < as.size := by simpa using inside
    rw [List.getElem_map, List.getElem_map, List.getElem_range, Array.getElem?_eq_getElem inside,
      Array.getElem_toList]
  calc (List.range as.size).filterMap (as[·]?)
      = ((List.range as.size).map (as[·]?)).filterMap fun a => a := by
        rw [List.filterMap_map]
        rfl
    _ = as.toList := by
        rw [places, List.filterMap_map]
        exact List.filterMap_some

namespace Indexed

variable {g : Graph} (indexed : g.Indexed)

include indexed

theorem map_id_edges : g.edges.toList.map (·.id) = List.range g.edges.size := by
  refine List.ext_getElem (by simp) fun j _ _ => ?_
  rw [List.getElem_map, List.getElem_range]
  refine indexed.edge_id ?_
  rw [← Array.getElem?_toList, List.getElem?_eq_getElem]

theorem getElem?_id {e : Edge} (stored : e ∈ g.edges.toList) : g.edges[e.id]? = some e :=
  indexed.coherent.getElem?_id stored

/-- A node lists all edges that it heads, in the order of the graph. -/
theorem edgesOf_eq_filter {id : NodeId} (known : id < g.nodes.size) :
    g.edgesOf id = g.edges.toList.filter (·.head = id) := by
  have here := Array.getElem?_eq_getElem known
  unfold edgesOf
  rw [here]
  dsimp only
  rw [indexed.node_edges here, building, List.filterMap_filter]
  calc (List.range g.edges.size).filterMap
        (fun j => if g.edges[j]?.any (·.head = id) = true then g.edges[j]? else none)
      = (List.range g.edges.size).filterMap (fun j => g.edges[j]?.filter (·.head = id)) := by
        refine List.filterMap_congr fun j _ => ?_
        cases g.edges[j]? with
        | none => rfl
        | some e => by_cases same : e.head = id <;> simp [same, Option.filter]
    _ = ((List.range g.edges.size).filterMap (g.edges[·]?)).filter (·.head = id) :=
        List.filter_filterMap.symm
    _ = g.edges.toList.filter (·.head = id) := by rw [filterMap_range_size]

/-- A node has no edges only if its list is empty: every number on it is that of an edge. -/
theorem edgesOf_eq_nil_iff {id : NodeId} {node : Node} (here : g.nodes[id]? = some node) :
    g.edgesOf id = [] ↔ node.edges = [] :=
  indexed.coherent.edgesOf_eq_nil_iff here

theorem nodup_edgesOf (id : NodeId) : (g.edgesOf id).Nodup := by
  by_cases known : id < g.nodes.size
  · rw [indexed.edgesOf_eq_filter known]
    have ids : (g.edges.toList.map (·.id)).Nodup := by
      rw [indexed.map_id_edges]
      exact List.nodup_range
    exact ids.of_map.filter _
  · unfold edgesOf
    rw [Array.getElem?_eq_none (Nat.le_of_not_lt known)]
    exact List.nodup_nil

theorem tail_known {id : NodeId} {e : Edge} (building : e ∈ g.edgesOf id) {t : NodeId}
    (listed : t ∈ e.tails) : t < g.nodes.size :=
  indexed.coherent.tail_known building listed

theorem ranked_depth (acyclic : g.Acyclic) : g.Ranked g.depth := by
  intro e stored t listed
  exact acyclic.countP_reaches_lt (linked_iff.2 ⟨e, stored, rfl, listed⟩)
    (List.mem_range.2 (indexed.head_lt (indexed.getElem?_id stored))) rfl

end Indexed

section Upon

variable {g : Graph}

/-- The derivations of a node out of given ones of the tails of its edges. -/
def upon (g : Graph) (tails : NodeId → List Derivation) (id : NodeId) : List Derivation :=
  match g.nodes[id]? with
  | none => []
  | some node =>
    if node.edges.isEmpty then [.leaf node]
    else (g.edgesOf id).flatMap fun e => (picks (e.tails.map tails)).map (.step node e)

theorem upon_congr {f f' : NodeId → List Derivation} {id : NodeId}
    (same : ∀ e ∈ g.edgesOf id, ∀ t ∈ e.tails, f t = f' t) : g.upon f id = g.upon f' id := by
  unfold upon
  cases g.nodes[id]? with
  | none => rfl
  | some node =>
      refine if_congr Iff.rfl rfl (List.flatMap_congr fun e building => ?_)
      rw [List.map_congr_left (same e building)]

/-- If those of the tails are all that have some property, these are all that have it below. -/
theorem mem_upon_iff (coherent : g.Coherent) {f : NodeId → List Derivation} {id : NodeId}
    {P : Derivation → Prop}
    (each : ∀ e ∈ g.edgesOf id, ∀ t ∈ e.tails, ∀ d, d ∈ f t ↔ d.Of g t ∧ P d) {d : Derivation} :
    d ∈ g.upon f id ↔ d.Of g id ∧ ∀ b ∈ d.tails, P b := by
  unfold upon
  cases here : g.nodes[id]? with
  | none =>
      refine iff_of_false List.not_mem_nil fun ⟨derives, _⟩ => ?_
      rw [derives.known] at here
      cases here
  | some node =>
      dsimp only
      by_cases bare : node.edges = []
      · rw [if_pos (List.isEmpty_iff.2 bare), List.mem_singleton]
        constructor
        · rintro rfl
          exact ⟨.leaf here bare, fun _ none => absurd none List.not_mem_nil⟩
        · rintro ⟨derives, -⟩
          cases derives with
          | leaf known => rw [Option.some.inj (here.symm.trans known)]
          | step _ building =>
              rw [(coherent.edgesOf_eq_nil_iff here).2 bare] at building
              cases building
      · rw [if_neg (mt List.isEmpty_iff.1 bare), List.mem_flatMap]
        have picked : ∀ e ∈ g.edgesOf id, ∀ below : List Derivation,
            below ∈ picks (e.tails.map f) ↔
              List.Forall₂ (Derivation.Of g) e.tails below ∧ ∀ b ∈ below, P b := by
          intro e building below
          rw [mem_picks, List.forall₂_map_left_iff,
            forall₂_congr_left fun t tail d => each e building t tail d, forall₂_and_right]
        constructor
        · rintro ⟨e, building, member⟩
          obtain ⟨below, pick, rfl⟩ := List.mem_map.1 member
          obtain ⟨tails, all⟩ := (picked e building below).1 pick
          exact ⟨.step here building tails, all⟩
        · rintro ⟨derives, all⟩
          cases derives with
          | leaf known none => exact absurd (Option.some.inj (here.symm.trans known) ▸ none) bare
          | step known building tails =>
              cases here.symm.trans known
              exact ⟨_, building, List.mem_map_of_mem ((picked _ building _).2 ⟨tails, all⟩)⟩

theorem nodup_upon (indexed : g.Indexed) {f : NodeId → List Derivation} {id : NodeId}
    (each : ∀ e ∈ g.edgesOf id, ∀ t ∈ e.tails, (f t).Nodup) : (g.upon f id).Nodup := by
  unfold upon
  cases g.nodes[id]? with
  | none => exact List.nodup_nil
  | some node =>
      dsimp only
      split
      · exact List.nodup_singleton _
      · refine List.nodup_flatMap.2 ⟨fun e building => ?_, ?_⟩
        · refine (nodup_picks fun ds listed => ?_).map fun below below' same => ?_
          · obtain ⟨t, tail, rfl⟩ := List.mem_map.1 listed
            exact each e building t tail
          · cases same
            rfl
        · refine (indexed.nodup_edgesOf id).imp fun {e f} differ d first second => ?_
          obtain ⟨below, -, rfl⟩ := List.mem_map.1 first
          obtain ⟨below', -, same⟩ := List.mem_map.1 second
          cases same
          exact differ rfl

end Upon

section Unfold

variable {g : Graph}

theorem depth_lt (indexed : g.Indexed) (acyclic : g.Acyclic) {id : NodeId} {e : Edge}
    (building : e ∈ g.edgesOf id) {t : NodeId} (listed : t ∈ e.tails) : g.depth t < g.depth id := by
  obtain ⟨stored, head⟩ := indexed.mem_edgesOf building
  exact head ▸ indexed.ranked_depth acyclic e stored t listed

/-- What holds of a node whenever it holds of the tails of its edges holds of all nodes. -/
theorem tails_induction (indexed : g.Indexed) (acyclic : g.Acyclic) {motive : NodeId → Prop}
    (step : ∀ id, (∀ e ∈ g.edgesOf id, ∀ t ∈ e.tails, motive t) → motive id) (id : NodeId) :
    motive id :=
  step id fun _ _ t _ => tails_induction indexed acyclic step t
termination_by g.depth id
decreasing_by exact depth_lt indexed acyclic ‹_› ‹_›

/-- The derivations of a node, those by one edge after those by another. -/
def unfold (indexed : g.Indexed) (acyclic : g.Acyclic) (id : NodeId) : List Derivation :=
  match g.nodes[id]? with
  | none => []
  | some node =>
    if node.edges.isEmpty then [.leaf node]
    else (g.edgesOf id).attach.flatMap fun e =>
      (picks (e.1.tails.attach.map fun t => unfold indexed acyclic t.1)).map (.step node e.1)
termination_by g.depth id
decreasing_by exact depth_lt indexed acyclic e.2 t.2

variable (indexed : g.Indexed) (acyclic : g.Acyclic)

theorem unfold_eq_upon (id : NodeId) :
    unfold indexed acyclic id = g.upon (unfold indexed acyclic) id := by
  rw [unfold, upon]
  cases g.nodes[id]? with
  | none => rfl
  | some node =>
      dsimp only
      congr 1
      rw [List.flatMap_def, List.flatMap_def]
      simp only [List.map_attach_eq_pmap, List.pmap_eq_map]

theorem unfold_eq {id : NodeId} {node : Node} (here : g.nodes[id]? = some node) :
    unfold indexed acyclic id =
      if node.edges.isEmpty then [.leaf node]
      else (g.edgesOf id).flatMap fun e =>
        (picks (e.tails.map (unfold indexed acyclic))).map (.step node e) := by
  rw [unfold_eq_upon, upon, here]

/-- The unfolding has every derivation of the node, and nothing else. -/
theorem mem_unfold {id : NodeId} {d : Derivation} :
    d ∈ unfold indexed acyclic id ↔ d.Of g id := by
  induction id using tails_induction indexed acyclic generalizing d with
  | step id ih =>
      rw [unfold_eq_upon, mem_upon_iff indexed.coherent (P := fun _ => True)]
      · exact and_iff_left fun _ _ => trivial
      · exact fun e building t tail d => (ih e building t tail).trans (and_iff_left trivial).symm

/-- No derivation comes twice. -/
theorem nodup_unfold (id : NodeId) : (unfold indexed acyclic id).Nodup := by
  induction id using tails_induction indexed acyclic with
  | step id ih =>
      rw [unfold_eq_upon]
      exact nodup_upon indexed ih

end Unfold

end Graph

end PackedForest
