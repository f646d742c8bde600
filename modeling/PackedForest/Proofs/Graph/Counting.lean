import Mathlib.Algebra.BigOperators.Group.List.Basic
import Mathlib.Algebra.GroupWithZero.Nat
import PackedForest.Proofs.Graph.Memo
import PackedForest.Proofs.Graph.Unfolding

/-!
# The count of derivations

Sums and products that stop at the limit are the true ones cut at the limit, whether they were cut
on the way or not: a product that exceeds the limit stays above it, unless a factor is zero. So the
count of a node is the length of its unfolding, as far as numbers go.
-/

namespace PackedForest

theorem saturatingAdd_min (a b : Nat) :
    saturatingAdd (min a countLimit) (min b countLimit) = min (a + b) countLimit := by
  unfold saturatingAdd
  omega

theorem saturatingMul_min (a b : Nat) :
    saturatingMul (min a countLimit) (min b countLimit) = min (a * b) countLimit := by
  unfold saturatingMul
  rcases Nat.eq_zero_or_pos a with rfl | some_a
  · simp
  rcases Nat.eq_zero_or_pos b with rfl | some_b
  · simp
  have positive : 0 < countLimit := by decide
  rcases Nat.le_total a countLimit with small_a | large_a
  · rcases Nat.le_total b countLimit with small_b | large_b
    · rw [Nat.min_eq_left small_a, Nat.min_eq_left small_b]
    · rw [Nat.min_eq_right large_b, Nat.min_eq_right (Nat.le_mul_of_pos_left _ (by omega)),
        Nat.min_eq_right (Nat.le_trans large_b (Nat.le_mul_of_pos_left _ some_a))]
  · rw [Nat.min_eq_right large_a, Nat.min_eq_right (Nat.le_mul_of_pos_right _ (by omega)),
      Nat.min_eq_right (Nat.le_trans large_a (Nat.le_mul_of_pos_right _ some_b))]

theorem foldl_saturatingMul {α : Type} (as : List α) (count : α → Nat) (a : Nat) :
    as.foldl (fun product x => saturatingMul product (min (count x) countLimit))
      (min a countLimit) = min (a * (as.map count).prod) countLimit := by
  induction as generalizing a with
  | nil => simp
  | cons x as ih =>
      rw [List.foldl_cons, saturatingMul_min, ih, List.map_cons, List.prod_cons, Nat.mul_assoc]

theorem foldl_saturatingAdd {α : Type} (as : List α) (count : α → Nat) (a : Nat) :
    as.foldl (fun total x => saturatingAdd total (min (count x) countLimit))
      (min a countLimit) = min (a + (as.map count).sum) countLimit := by
  induction as generalizing a with
  | nil => simp
  | cons x as ih =>
      rw [List.foldl_cons, saturatingAdd_min, ih, List.map_cons, List.sum_cons, Nat.add_assoc]

namespace Graph

/-- Out of the numbers of derivations of the tails, the sum over the edges is that of the node. -/
theorem foldl_upon {g : Graph} {id : NodeId} {node : Node} (here : g.nodes[id]? = some node)
    (some_edge : node.edges ≠ []) (f : NodeId → List Derivation) :
    (g.edgesOf id).foldl (fun total e => saturatingAdd total
      (e.tails.foldl (fun product t => saturatingMul product (min (f t).length countLimit)) 1)) 0 =
      min (g.upon f id).length countLimit := by
  have one : (1 : Nat) = min 1 countLimit := by decide
  have none : (0 : Nat) = min 0 countLimit := by decide
  have by_edge : ∀ e : Edge,
      e.tails.foldl (fun product t => saturatingMul product (min (f t).length countLimit)) 1 =
        min (e.tails.map fun t => (f t).length).prod countLimit := by
    intro e
    rw [one]
    exact (foldl_saturatingMul e.tails (fun t => (f t).length) 1).trans (by rw [Nat.one_mul])
  simp only [by_edge]
  rw [none, foldl_saturatingAdd, Nat.zero_add, upon, here]
  dsimp only
  rw [if_neg (mt List.isEmpty_iff.1 some_edge), List.length_flatMap]
  congr 3
  funext e
  rw [List.length_map, length_picks, List.map_map]
  rfl

variable {g : Graph} (indexed : g.Indexed) (acyclic : g.Acyclic)

/-- The number of derivations, as far as numbers go. -/
def count (id : NodeId) : Nat := min (unfold indexed acyclic id).length countLimit

theorem count_of_edges {id : NodeId} {node : Node} (here : g.nodes[id]? = some node)
    (some_edge : node.edges ≠ []) :
    (g.edgesOf id).foldl (fun total e => saturatingAdd total
      (e.tails.foldl (fun product t => saturatingMul product (count indexed acyclic t)) 1)) 0 =
      count indexed acyclic id := by
  rw [count, unfold_eq_upon]
  exact foldl_upon here some_edge _

/-- Below the nodes of a path that are being counted, the count of a node is as said. -/
theorem countFrom_computes (fuel : Nat) {path : List NodeId} {id : NodeId}
    (known : id < g.nodes.size) (below : ∀ node ∈ path, g.depth id < g.depth node)
    (enough : g.depth id < fuel) :
    Computes (.never Id) (MemoOf (count indexed acyclic) path) (g.countFrom fuel id)
      (count indexed acyclic id) (MemoOf (count indexed acyclic) path) := by
  induction fuel generalizing path id with
  | zero => exact absurd enough (Nat.not_lt_zero _)
  | succ fuel ih =>
      have new : id ∉ path := fun member => Nat.lt_irrefl _ (below id member)
      obtain ⟨node, here⟩ : ∃ node, g.nodes[id]? = some node :=
        ⟨_, Array.getElem?_eq_getElem known⟩
      rw [countFrom]
      refine .get_bind fun memo holds => ?_
      cases entry : memo[id]? with
      | some found =>
          rw [holds id new found entry]
          exact .pure _
      | none =>
          dsimp only
          split
          · next bare =>
              have one : count indexed acyclic id = 1 := by
                have unlisted := (indexed.edgesOf_eq_nil_iff here).1 (List.isEmpty_iff.1 bare)
                rw [count, unfold_eq indexed acyclic here, if_pos (List.isEmpty_iff.2 unlisted)]
                exact Nat.min_eq_left (show 1 ≤ countLimit by decide)
              rw [← one]
              exact .bind (.modify fun _ holds => holds.insert id) (.pure _)
          · next some_edge =>
              have listed : node.edges ≠ [] := fun unlisted =>
                some_edge (List.isEmpty_iff.2 ((indexed.edgesOf_eq_nil_iff here).2 unlisted))
              refine .bind (.modify fun _ holds => holds.enter id 0) (.bind
                (a := count indexed acyclic id) ?_
                (.bind (.modify fun _ => MemoOf.leave) (.pure _)))
              rw [← count_of_edges indexed acyclic here listed]
              refine .foldlM (fun total e building => ?_) 0
              refine .bind (.foldlM (fun product t tail => ?_) 1) (.pure _)
              refine .bind (ih ?_ ?_ ?_) (.pure _)
              · exact indexed.tail_known building tail
              · exact below_tail indexed (indexed.ranked_depth acyclic) below building tail
              · exact Nat.lt_of_lt_of_le (depth_lt indexed acyclic building tail)
                  (Nat.le_of_lt_succ enough)

theorem derivationCount_eq {id : NodeId} (known : id < g.nodes.size) :
    g.derivationCount id = .ok (count indexed acyclic id) := by
  have enough : g.depth id < g.nodes.size + 1 := Nat.lt_succ_of_le (g.depth_le id)
  have computes := countFrom_computes indexed acyclic _ known
    (fun _ inside => absurd inside List.not_mem_nil) enough ∅ (.empty _ [])
  rcases computes with ⟨memo, runs, -⟩ | stopped
  · have here : g.node id = .ok g.nodes[id] := by
      rw [node, Array.getElem?_eq_getElem known]
    rw [derivationCount, here, runs]
    rfl
  · exact stopped.elim

end Graph

end PackedForest
