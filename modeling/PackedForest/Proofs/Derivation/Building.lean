import PackedForest.Derivation.Tree
import PackedForest.Proofs.Graph.Admission
import PackedForest.Proofs.Graph.Tally

/-!
# Trees from the edges of a derivation

A fragment has the edges of a derivation one after another, and a tree is built by taking them from
the front: a node with edges takes the next one, and after it what is below each tail takes its
share (`Graph.buildTree`). An edge of another head than the node that takes it halts the work.

For a derivation of a node no edge does, whatever follows its edges is left, and the tree is that of
the derivation (`Graph.Coherent.buildTree_edges`). So all that enumeration lists can be built, in
every graph that can be read or put together, whether or not it has a cycle
(`Graph.Admitted.derivations_spec`).
-/

namespace PackedForest

namespace Graph

/-- The tree of a node over the next edges of a list, and the edges that it leaves. -/
def buildTree (g : Graph) (v : Vocabulary) :
    (fuel : Nat) → NodeId → StateT (List Edge) (Except Halt) (Tree String String)
  | 0, _ => throw .unfinished
  | fuel + 1, id => do
    let node ← g.fetchNode id
    let label ← (v.symbol node.sym).mapError Halt.fault
    if node.edges.isEmpty then return .branch label node.span []
    match ← get with
    | [] => return .branch label node.span []
    | e :: edges =>
      if e.head ≠ id then throw (.foreignHead e.id)
      set edges
      let subtrees ← e.tails.mapM (buildTree g v fuel)
      let ordered := subtrees.mergeSort fun s t => s.span.start ≤ t.span.start
      let children ← (layout v g.words node.span.stop node.span.start ordered).mapError Halt.fault
      return .branch label node.span children

end Graph

section Builds

variable {α β : Type}

/-- From these edges on, the computation comes to the result and leaves the rest, or it stops for
the fault that is the result. -/
def Builds (x : StateT (List Edge) (Except Halt) α) (edges rest : List Edge)
    (result : Except Fault α) : Prop :=
  x.run edges = (result.mapError Halt.fault).map (·, rest)

namespace Builds

variable {edges between rest : List Edge}

theorem pure (a : α) (edges : List Edge) : Builds (Pure.pure a) edges edges (.ok a) := rfl

theorem lift (x : Except Fault α) (edges : List Edge) :
    Builds (liftM (x.mapError Halt.fault)) edges edges x := by
  cases x <;> rfl

theorem bind {x : StateT (List Edge) (Except Halt) α} {f : α → StateT (List Edge) (Except Halt) β}
    {result : Except Fault α} {next : α → Except Fault β} (first : Builds x edges between result)
    (second : ∀ a, Builds (f a) between rest (next a)) :
    Builds (x >>= f) edges rest (result >>= next) := by
  unfold Builds at first ⊢
  rw [StateT.run_bind, first]
  cases result with
  | error fault => rfl
  | ok a => exact second a

theorem get_bind {f : List Edge → StateT (List Edge) (Except Halt) α} {result : Except Fault α}
    (next : Builds (f edges) edges rest result) : Builds (get >>= f) edges rest result := next

theorem set_bind {f : PUnit → StateT (List Edge) (Except Halt) α} {result : Except Fault α}
    (next : Builds (f ⟨⟩) between rest result) :
    Builds (set between >>= f) edges rest result := next

end Builds

end Builds

namespace Graph

open PackedForest.Derivation

variable {g : Graph}

/-- If the tree of each tail takes its share, so do the trees of all tails in turn. -/
theorem buildTree_tails {v : Vocabulary} {fuel : Nat}
    (each : ∀ {t : NodeId} {d : Derivation}, d.Of g t → d.edges.length < fuel → ∀ rest,
      Builds (g.buildTree v fuel t) (d.edges ++ rest) rest (d.toTree v g.words))
    {ts : List NodeId} {ds : List Derivation} (derive : List.Forall₂ (Of g) ts ds)
    (enough : (edgesBelow ds).length < fuel) (rest : List Edge) :
    Builds (ts.mapM (g.buildTree v fuel)) (edgesBelow ds ++ rest) rest (toTrees v g.words ds) := by
  induction derive with
  | nil => exact .pure [] rest
  | @cons t d ts ds derives _ ih =>
      rw [edgesBelow, List.length_append] at enough
      rw [List.mapM_cons, edgesBelow, List.append_assoc, toTrees]
      refine .bind (each derives (by omega) _) fun tree => ?_
      exact .bind (ih (by omega)) fun trees => .pure _ _

namespace Coherent

variable (coherent : g.Coherent)

include coherent

theorem buildTree_edges (v : Vocabulary) (fuel : Nat) {id : NodeId} {d : Derivation}
    (derives : d.Of g id) (enough : d.edges.length < fuel) (rest : List Edge) :
    Builds (g.buildTree v fuel id) (d.edges ++ rest) rest (d.toTree v g.words) := by
  induction fuel generalizing id d rest with
  | zero => exact absurd enough (Nat.not_lt_zero _)
  | succ fuel ih =>
      cases derives with
      | leaf here bare =>
          rw [buildTree, lift_bind (fetchNode_eq_ok here), toTree]
          refine .bind (.lift _ _) fun label => ?_
          rw [if_pos (List.isEmpty_iff.2 bare)]
          exact .pure _ _
      | @step _ node e below here building tails =>
          have listed : node.edges ≠ [] :=
            mt (coherent.edgesOf_eq_nil_iff here).2 (List.ne_nil_of_mem building)
          have fewer : (edgesBelow below).length < fuel := Nat.lt_of_succ_lt_succ enough
          rw [buildTree, lift_bind (fetchNode_eq_ok here), toTree, Derivation.edges,
            List.cons_append]
          refine .bind (.lift _ _) fun label => ?_
          rw [if_neg (mt List.isEmpty_iff.1 listed)]
          refine .get_bind ?_
          dsimp only
          rw [if_neg (not_not_intro (coherent.mem_edgesOf building).2)]
          refine .set_bind (.bind (buildTree_tails ih tails fewer rest) fun subtrees => ?_)
          exact .bind (.lift _ _) fun children => .pure _ _

end Coherent

/-! ### Graphs with cycles -/

/-- On every graph that is read or put together out of edges with probabilities, along cycles too,
the walks that count and list derivations come to an end and find all nodes and edges in their
places. What they list are derivations of the node: their edges in preorder replay to them, and a
tree is built out of just these edges. From some limit on the count is the length of the list, as
far as numbers go. -/
theorem Admitted.derivations_spec (admitted : g.Admitted) {id : NodeId}
    (known : id < g.nodes.size) :
    ∃ count, g.derivationCount id = .ok count ∧ g.derivationCountChecked id = .ok count ∧
      (∀ check limit, ∃ ds, g.derivations check id limit = .ok ds ∧
        g.derivationsChecked check id limit = .ok ds ∧
        ∀ d ∈ ds, d.Of g id ∧ g.replay [id] d.edges = some [d] ∧
          ∀ v fuel, d.edges.length < fuel → ∀ rest,
            Builds (g.buildTree v fuel id) (d.edges ++ rest) rest (d.toTree v g.words)) ∧
      ∀ check, ∃ ds enough, count = min ds.length countLimit ∧
        ∀ limit, enough ≤ limit → g.derivations check id limit = .ok ds := by
  have coherent := admitted.coherent
  obtain ⟨count, counted, walked⟩ := derivationCountChecked_eq coherent known
  refine ⟨count, counted, walked, fun check limit => ?_, fun check => ?_⟩
  · obtain ⟨ds, listed, found, all⟩ :=
      derivationsChecked_eq coherent admitted.probable check known limit
    refine ⟨ds, listed, found, fun d member => ?_⟩
    have derives := all d member
    refine ⟨derives, coherent.replay_edges derives, fun v fuel enough rest => ?_⟩
    exact coherent.buildTree_edges v fuel derives enough rest
  · obtain ⟨ds, enough, length, listed⟩ := exists_limit coherent admitted.probable check known
    exact ⟨ds, enough, Except.ok.inj (counted.symm.trans length), listed⟩

/-- Two nodes with edges to each other, and an edge out of nothing. -/
def circle : Graph :=
  edited [.addNode (.new 0 ⟨0, 1⟩), .addNode (.new 1 ⟨0, 1⟩),
    .addEdge { EdgeRecord.new 0 with tails := [1] },
    .addEdge { EdgeRecord.new 1 with tails := [0] },
    .addEdge (.new 0)]

theorem admitted_circle : circle.Admitted := by
  have certain : isProbability 1.0 = true := by decide +kernel
  refine .edited ?_
  simp only [List.forall_mem_cons]
  exact ⟨trivial, trivial, certain, certain, certain, List.forall_mem_nil _⟩

theorem derivations_spec_circle : circle.Admitted ∧ 0 < circle.nodes.size ∧
    circle.derivationCount 0 = .ok 1 ∧ ∃ ds enough, ds.length = 1 ∧
      ∀ limit, enough ≤ limit → circle.derivations true 0 limit = .ok ds := by
  have known : 0 < circle.nodes.size := by decide
  have one : circle.derivationCount 0 = .ok 1 := rfl
  obtain ⟨count, counted, -, -, enumerated⟩ := admitted_circle.derivations_spec known
  obtain ⟨ds, enough, length, listed⟩ := enumerated true
  rw [← Except.ok.inj (one.symm.trans counted)] at length
  have limit : 1 < countLimit := by decide
  exact ⟨admitted_circle, known, one, ds, enough, by omega, listed⟩

end Graph

end PackedForest
