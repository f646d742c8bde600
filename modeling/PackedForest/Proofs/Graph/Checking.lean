import PackedForest.Graph.Record

/-!
# What the checks on a record ask for

A record of a forest is taken for one if all checks on its nodes and edges are passed.
`GraphRecord.Sound` says in one place what they ask for, and `GraphRecord.toGraph_eq_ok_iff` that
they ask for no more and no less. The forest has the nodes and edges of the record in its order.
-/

namespace PackedForest

/-- Steps that either go on or fail all go on, or the whole run fails. -/
theorem forIn_eq_ok_iff {α ε : Type} {step : α → Except ε (ForInStep PUnit)} {passes : α → Prop}
    {as : List α}
    (goes : ∀ a ∈ as, passes a → step a = .ok (.yield .unit))
    (fails : ∀ a ∈ as, ¬ passes a → ∃ e, step a = .error e) :
    (forIn as PUnit.unit fun a _ => step a) = .ok .unit ↔ ∀ a ∈ as, passes a := by
  induction as with
  | nil => exact iff_of_true rfl (List.forall_mem_nil _)
  | cons a as ih =>
      obtain ⟨goes_here, goes_later⟩ := List.forall_mem_cons.1 goes
      obtain ⟨fails_here, fails_later⟩ := List.forall_mem_cons.1 fails
      rw [List.forIn_cons, List.forall_mem_cons]
      by_cases passed : passes a
      · rw [goes_here passed, ← ih goes_later fails_later]
        exact (and_iff_right passed).symm
      · obtain ⟨e, failed⟩ := fails_here passed
        rw [failed]
        refine iff_of_false ?_ fun both => passed both.1
        intro ended
        cases ended

/-- Checks of the elements of a list, with their places. -/
theorem forIn_check {α ε : Type} {f : α → Nat → Except ε Unit} {as : List (α × Nat)} :
    (forIn as PUnit.unit fun x _ => match x with
      | (a, place) => do
        f a place
        return ForInStep.yield PUnit.unit) = .ok .unit ↔ ∀ x ∈ as, f x.1 x.2 = .ok () := by
  refine forIn_eq_ok_iff ?_ ?_
  · rintro ⟨a, place⟩ - passed
    dsimp only at passed ⊢
    rw [passed]
    rfl
  · rintro ⟨a, place⟩ - failed
    dsimp only at failed ⊢
    cases result : f a place with
    | ok u => exact absurd result failed
    | error e => exact ⟨e, rfl⟩

/-- Two runs of checks before a value. -/
theorem checks_eq_ok_iff {α ε : Type} {x y : Except ε PUnit} {a b : α} :
    (do x; y; return a) = .ok b ↔ (x = .ok .unit ∧ y = .ok .unit) ∧ b = a := by
  cases x with
  | error e => exact iff_of_false (fun run => by cases run) fun all => by cases all.1.1
  | ok u =>
      cases y with
      | error e => exact iff_of_false (fun run => by cases run) fun all => by cases all.1.2
      | ok u' =>
          rw [and_iff_right ⟨rfl, rfl⟩]
          exact ⟨fun run => (Except.ok.inj run).symm, fun same => congrArg Except.ok same.symm⟩

namespace GraphRecord

/-- Nodes and edges stand at the places of their numbers, nodes list edges that they head, every
edge joins nodes that exist and is listed on its head, and probabilities are probabilities. -/
structure Sound (r : GraphRecord) : Prop where
  node_id : ∀ {place : NodeId} {n : NodeRecord}, r.nodes[place]? = some n → n.id = some place
  node_edges : ∀ {place : NodeId} {n : NodeRecord}, r.nodes[place]? = some n → ∀ id ∈ n.edges,
    ∃ e, r.edges[id]? = some e ∧ e.head = place
  edge_id : ∀ {place : EdgeId} {e : EdgeRecord}, r.edges[place]? = some e → e.id = some place
  edge_head : ∀ {place : EdgeId} {e : EdgeRecord}, r.edges[place]? = some e →
    ∃ head, r.nodes[e.head]? = some head ∧ place ∈ head.edges
  edge_tails : ∀ {place : EdgeId} {e : EdgeRecord}, r.edges[place]? = some e →
    ∀ t ∈ e.tails, t < r.nodes.length
  edge_probability : ∀ {place : EdgeId} {e : EdgeRecord}, r.edges[place]? = some e →
    isProbability e.probability = true

theorem checkNode_eq_ok_iff {edges : Array EdgeRecord} {place : NodeId} {n : NodeRecord} :
    checkNode edges place n = .ok () ↔
      n.id = some place ∧ ∀ id ∈ n.edges, ∃ e, edges[id]? = some e ∧ e.head = place := by
  unfold checkNode
  extract_lets listed
  by_cases number : n.id = some place
  · rw [if_neg (not_not_intro number), and_iff_right number]
    unfold listed
    rw [bind_pure_unit]
    refine forIn_eq_ok_iff ?_ ?_
    · rintro id - ⟨e, there, heads⟩
      rw [there]
      exact if_neg (not_not_intro heads)
    · intro id _ other
      cases there : edges[id]? with
      | none => exact ⟨_, rfl⟩
      | some e =>
          have foreign : e.head ≠ place := fun heads => other ⟨e, there, heads⟩
          exact ⟨.listsForeignEdge place id, if_pos foreign⟩
  · rw [if_pos number]
    refine iff_of_false ?_ fun both => number both.1
    intro passed
    cases passed

theorem checkEdge_eq_ok_iff {nodes : Array NodeRecord} {place : EdgeId} {e : EdgeRecord} :
    checkEdge nodes place e = .ok () ↔
      e.id = some place ∧ (∃ head, nodes[e.head]? = some head ∧ place ∈ head.edges) ∧
        (∀ t ∈ e.tails, t < nodes.size) ∧ isProbability e.probability = true := by
  unfold checkEdge
  dsimp only
  by_cases number : e.id = some place
  · rw [if_neg (not_not_intro number), and_iff_right number]
    cases there : nodes[e.head]? with
    | none =>
        refine iff_of_false (fun passed => by cases passed) ?_
        rintro ⟨⟨head, same, -⟩, -⟩
        cases same
    | some head =>
        dsimp only
        have headed : (∃ head', some head = some head' ∧ place ∈ head'.edges) ↔
            place ∈ head.edges := by simp
        have known : (e.tails.all fun t => t < nodes.size) = true ↔
            ∀ t ∈ e.tails, t < nodes.size := by simp
        rw [headed, ← known]
        cases e.tails.all fun t => t < nodes.size with
        | false => exact iff_of_false (fun passed => by cases passed) fun all => by cases all.2.1
        | true =>
            by_cases listed : place ∈ head.edges
            · rw [if_neg (not_not_intro listed)]
              cases isProbability e.probability with
              | false =>
                  exact iff_of_false (fun passed => by cases passed) fun all => by cases all.2.2
              | true => exact iff_of_true rfl ⟨listed, rfl, rfl⟩
            · rw [if_pos listed]
              exact iff_of_false (fun passed => by cases passed) fun all => listed all.1
  · rw [if_pos number]
    exact iff_of_false (fun passed => by cases passed) fun all => number all.1

/-- The forest with the parts of a record, each under the number of its place. -/
def placed (r : GraphRecord) : Graph where
  words := r.words
  nodes := r.nodes.toArray.mapIdx fun place n => n.numbered place
  edges := r.edges.toArray.mapIdx fun place e => e.numbered place

theorem toGraph_eq_ok_iff {r : GraphRecord} {g : Graph} :
    r.toGraph = .ok g ↔ r.Sound ∧ g = r.placed := by
  have nodes_checked : (∀ x ∈ r.nodes.zipIdx, checkNode r.edges.toArray x.2 x.1 = .ok ()) ↔
      ∀ (place : NodeId) (n : NodeRecord), r.nodes[place]? = some n →
        n.id = some place ∧ ∀ id ∈ n.edges, ∃ e, r.edges[id]? = some e ∧ e.head = place := by
    simp only [Prod.forall, List.mem_zipIdx_iff_getElem?, checkNode_eq_ok_iff,
      List.getElem?_toArray]
    exact forall_comm
  have edges_checked : (∀ x ∈ r.edges.zipIdx, checkEdge r.nodes.toArray x.2 x.1 = .ok ()) ↔
      ∀ (place : EdgeId) (e : EdgeRecord), r.edges[place]? = some e →
        e.id = some place ∧ (∃ head, r.nodes[e.head]? = some head ∧ place ∈ head.edges) ∧
        (∀ t ∈ e.tails, t < r.nodes.length) ∧ isProbability e.probability = true := by
    simp only [Prod.forall, List.mem_zipIdx_iff_getElem?, checkEdge_eq_ok_iff,
      List.getElem?_toArray, List.size_toArray]
    exact forall_comm
  have sound : r.Sound ↔ (∀ x ∈ r.nodes.zipIdx, checkNode r.edges.toArray x.2 x.1 = .ok ()) ∧
      ∀ x ∈ r.edges.zipIdx, checkEdge r.nodes.toArray x.2 x.1 = .ok () := by
    rw [nodes_checked, edges_checked]
    constructor
    · intro h
      exact ⟨fun place n here => ⟨h.node_id here, h.node_edges here⟩, fun place e here =>
        ⟨h.edge_id here, h.edge_head here, h.edge_tails here, h.edge_probability here⟩⟩
    · rintro ⟨nodes, edges⟩
      exact ⟨fun here => (nodes _ _ here).1, fun here => (nodes _ _ here).2,
        fun here => (edges _ _ here).1, fun here => (edges _ _ here).2.1,
        fun here => (edges _ _ here).2.2.1, fun here => (edges _ _ here).2.2.2⟩
  refine checks_eq_ok_iff.trans (and_congr_left fun _ => ?_)
  exact (and_congr (forIn_check (f := fun n place => checkNode r.edges.toArray place n))
    (forIn_check (f := fun e place => checkEdge r.nodes.toArray place e))).trans sound.symm

end GraphRecord

end PackedForest
