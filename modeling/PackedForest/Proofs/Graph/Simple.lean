import PackedForest.Proofs.Graph.Unfolding

/-!
# Derivations without repetition

Along a cycle a node has derivations without end. Among them are finitely many in which no node
stands below itself (`Derivation.Simple`); `Graph.simples` lists them, each once.

A path from the root never comes to a node twice, so it is no longer than there are nodes, and this
bounds the depth of the search. A derivation in which each node ranks above those below it is simple
(`Derivation.Falls`), and where no two nodes lead to each other all simple derivations are of this
kind if tails rank lower than heads (`Graph.falls_of_simple`).
-/

namespace PackedForest

open Reachability (Leads)

/-- No node of a path stands in the derivation, and none stands below itself. -/
inductive Derivation.Apart : List NodeId → Derivation → Prop
  | intro {path : List NodeId} {d : Derivation} (new : d.node.id ∉ path)
      (tails : ∀ b ∈ d.tails, Apart (d.node.id :: path) b) : Apart path d

theorem Derivation.apart_iff {path : List NodeId} {d : Derivation} :
    d.Apart path ↔ d.node.id ∉ path ∧ ∀ b ∈ d.tails, b.Apart (d.node.id :: path) :=
  ⟨fun ⟨new, tails⟩ => ⟨new, tails⟩, fun ⟨new, tails⟩ => ⟨new, tails⟩⟩

/-- No node stands below itself: on the way from the root to a leaf none comes twice. -/
def Derivation.Simple (d : Derivation) : Prop := d.Apart []

namespace Graph

variable {g : Graph}

/-- A path down the graph, from its last node on: no node comes twice. The fuel is enough for all
nodes that are not on it. -/
structure Descent (g : Graph) (fuel : Nat) (path : List NodeId) : Prop where
  nodup : path.Nodup
  known : ∀ id ∈ path, id < g.nodes.size
  fuel : g.nodes.size < fuel + path.length

namespace Descent

variable {fuel : Nat} {path : List NodeId} {id : NodeId}

theorem start (g : Graph) : g.Descent (g.nodes.size + 1) [] :=
  ⟨List.nodup_nil, fun _ none => absurd none List.not_mem_nil, Nat.lt_succ_self _⟩

/-- A path has at most all nodes. -/
theorem fuel_ne_zero : ¬ g.Descent 0 path := by
  intro h
  have fewer := List.Nodup.length_le_of_subset h.nodup
    fun id member => List.mem_range.2 (h.known id member)
  rw [List.length_range] at fewer
  have enough := h.fuel
  omega

theorem step (h : g.Descent (fuel + 1) path) (new : id ∉ path) (known : id < g.nodes.size) :
    g.Descent fuel (id :: path) where
  nodup := List.nodup_cons.2 ⟨new, h.nodup⟩
  known := List.forall_mem_cons.2 ⟨known, h.known⟩
  fuel := by
    have enough := h.fuel
    rw [List.length_cons]
    omega

end Descent

/-- The derivations of a node that are apart from a path. -/
def simplesFrom (g : Graph) : (fuel : Nat) → (path : List NodeId) → NodeId → List Derivation
  | 0, _, _ => []
  | fuel + 1, path, id => if id ∈ path then [] else g.upon (simplesFrom g fuel (id :: path)) id

/-- The derivations of a node in which no node stands below itself. -/
def simples (g : Graph) (id : NodeId) : List Derivation := g.simplesFrom (g.nodes.size + 1) [] id

theorem mem_simplesFrom (coherent : g.Coherent) {fuel : Nat} {path : List NodeId}
    (descent : g.Descent fuel path) {id : NodeId} {d : Derivation} :
    d ∈ g.simplesFrom fuel path id ↔ d.Of g id ∧ d.Apart path := by
  induction fuel generalizing path id d with
  | zero => exact absurd descent Descent.fuel_ne_zero
  | succ fuel ih =>
      rw [simplesFrom]
      by_cases met : id ∈ path
      · rw [if_pos met]
        refine iff_of_false List.not_mem_nil ?_
        rintro ⟨derives, apart⟩
        exact (Derivation.apart_iff.1 apart).1 (derives.node_id coherent ▸ met)
      · rw [if_neg met]
        have all_of : d ∈ g.upon (g.simplesFrom fuel (id :: path)) id ↔
            d.Of g id ∧ ∀ b ∈ d.tails, b.Apart (id :: path) := by
          by_cases known : id < g.nodes.size
          · exact mem_upon_iff coherent fun e _ t _ d => ih (descent.step met known)
          · have absent := Array.getElem?_eq_none (Nat.le_of_not_lt known)
            rw [upon, absent]
            refine iff_of_false List.not_mem_nil ?_
            rintro ⟨derives, -⟩
            rw [derives.known] at absent
            cases absent
        rw [all_of]
        refine and_congr_right fun derives => ?_
        rw [Derivation.apart_iff, derives.node_id coherent, and_iff_right met]

theorem nodup_simplesFrom (indexed : g.Indexed) (fuel : Nat) (path : List NodeId) (id : NodeId) :
    (g.simplesFrom fuel path id).Nodup := by
  induction fuel generalizing path id with
  | zero => exact List.nodup_nil
  | succ fuel ih =>
      rw [simplesFrom]
      split
      · exact List.nodup_nil
      · exact nodup_upon indexed fun _ _ t _ => ih (id :: path) t

theorem mem_simples (coherent : g.Coherent) {id : NodeId} {d : Derivation} :
    d ∈ g.simples id ↔ d.Of g id ∧ d.Simple :=
  mem_simplesFrom coherent (.start g)

theorem nodup_simples (indexed : g.Indexed) (id : NodeId) : (g.simples id).Nodup :=
  nodup_simplesFrom indexed _ [] id

end Graph

/-! ### Derivations that go down in rank -/

/-- Each node ranks above those below it. -/
inductive Derivation.Falls (rank : NodeId → Nat) : Derivation → Prop
  | intro {d : Derivation} (lower : ∀ b ∈ d.tails, rank b.node.id < rank d.node.id)
      (tails : ∀ b ∈ d.tails, Falls rank b) : Falls rank d

theorem Derivation.falls_iff {rank : NodeId → Nat} {d : Derivation} :
    d.Falls rank ↔ ∀ b ∈ d.tails, rank b.node.id < rank d.node.id ∧ b.Falls rank :=
  ⟨fun ⟨lower, tails⟩ b under => ⟨lower b under, tails b under⟩,
    fun all => ⟨fun b under => (all b under).1, fun b under => (all b under).2⟩⟩

/-- What goes down in rank comes to no node again. -/
theorem Derivation.Falls.simple {rank : NodeId → Nat} {d : Derivation} (falls : d.Falls rank) :
    d.Simple := by
  have below : ∀ path, (∀ id ∈ path, rank d.node.id < rank id) → d.Apart path := by
    induction falls with
    | @intro d lower _ ih =>
        refine fun path above => ⟨fun met => Nat.lt_irrefl _ (above _ met), fun b under => ?_⟩
        refine ih b under _ (List.forall_mem_cons.2 ⟨lower b under, fun id member => ?_⟩)
        exact Nat.lt_trans (lower b under) (above id member)
  exact below [] fun _ none => absurd none List.not_mem_nil

namespace Graph

variable {g : Graph} {rank : NodeId → Nat}

/-- The derivations of a node that go down in rank. -/
def falling (g : Graph) (rank : NodeId → Nat) (id : NodeId) : List Derivation :=
  g.upon (fun t => if _ : rank t < rank id then falling g rank t else []) id
termination_by rank id

theorem falling_eq (g : Graph) (rank : NodeId → Nat) (id : NodeId) : g.falling rank id =
    g.upon (fun t => if rank t < rank id then g.falling rank t else []) id := by
  rw [falling]
  simp only [dite_eq_ite]

theorem mem_falling (coherent : g.Coherent) {id : NodeId} {d : Derivation} :
    d ∈ g.falling rank id ↔ d.Of g id ∧ d.Falls rank := by
  induction height : rank id using Nat.strongRecOn generalizing id d with
  | ind height ih =>
      subst height
      have all_of : d ∈ g.falling rank id ↔
          d.Of g id ∧ ∀ b ∈ d.tails, rank b.node.id < rank id ∧ b.Falls rank := by
        rw [falling_eq]
        refine mem_upon_iff coherent fun e _ t _ b => ?_
        split
        · next lower =>
            rw [ih _ lower rfl]
            refine and_congr_right fun derives => ?_
            rw [derives.node_id coherent, and_iff_right lower]
        · next high =>
            refine iff_of_false List.not_mem_nil fun ⟨derives, lower, _⟩ => high ?_
            rwa [derives.node_id coherent] at lower
      rw [all_of]
      refine and_congr_right fun derives => ?_
      rw [Derivation.falls_iff, derives.node_id coherent]

theorem nodup_falling (indexed : g.Indexed) (id : NodeId) : (g.falling rank id).Nodup := by
  induction height : rank id using Nat.strongRecOn generalizing id with
  | ind height ih =>
      subst height
      rw [falling_eq]
      refine nodup_upon indexed fun e _ t _ => ?_
      split
      · next lower => exact ih _ lower t rfl
      · exact List.nodup_nil

/-- Only the ranks up to that of the node matter. -/
theorem falling_congr {rank rank' : NodeId → Nat} {bound : Nat}
    (same : ∀ t, rank t < bound → rank' t = rank t)
    (same' : ∀ t, rank' t < bound → rank t = rank' t) {id : NodeId} (low : rank id < bound) :
    g.falling rank' id = g.falling rank id := by
  induction height : rank id using Nat.strongRecOn generalizing id with
  | ind height ih =>
      subst height
      rw [falling_eq, falling_eq, same id low]
      refine upon_congr fun e _ t _ => ?_
      by_cases lower : rank t < rank id
      · have low_tail := Nat.lt_trans lower low
        rw [if_pos lower, same t low_tail, if_pos lower, ih _ lower low_tail rfl]
      · rw [if_neg lower, if_neg fun lower' => lower ?_]
        rwa [same' t (Nat.lt_trans lower' low)]

/-- Where different nodes do not lead to each other, an edge that does not go down in rank is one
from a node to itself, and no simple derivation has such an edge. -/
theorem falls_of_simple (coherent : g.Coherent) {root : NodeId}
    (ranked : ∀ e ∈ g.edges.toList, Leads g.links root e.head → ∀ t ∈ e.tails,
      rank t < rank e.head ∨ Leads g.links t e.head)
    (apart : ∀ a b, Leads g.links root a → Leads g.links a b → Leads g.links b a → a = b)
    {d : Derivation} (derives : d.Of g root) (simple : d.Simple) : d.Falls rank := by
  have below : ∀ {path : List NodeId} {d : Derivation}, d.Apart path → ∀ {id : NodeId},
      d.Of g id → Leads g.links root id → d.Falls rank := by
    intro path d disjoint
    induction disjoint with
    | @intro path d _ tails ih =>
        intro id derives path_to
        refine Derivation.falls_iff.2 fun b under => ?_
        obtain ⟨e, building, t, tail, derives_tail⟩ := derives.exists_tail under
        obtain ⟨stored, rfl⟩ := coherent.mem_edgesOf building
        have link := linked_iff.2 ⟨e, stored, rfl, tail⟩
        refine ⟨?_, ih b under derives_tail (path_to.tail link)⟩
        rw [derives.node_id coherent, derives_tail.node_id coherent]
        refine (ranked e stored path_to t tail).resolve_right fun back => ?_
        have same := apart _ _ path_to (.single link) back
        refine (Derivation.apart_iff.1 (tails b under)).1 ?_
        rw [derives.node_id coherent, derives_tail.node_id coherent, same]
        exact List.mem_cons_self
  exact below simple derives .refl

end Graph

end PackedForest
