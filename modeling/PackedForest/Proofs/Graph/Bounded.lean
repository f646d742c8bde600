import PackedForest.Proofs.Derivation.Building
import PackedForest.Proofs.Graph.Showing

/-!
# The limit of an enumeration

The enumeration goes on at a node while there is room, and by each edge it adds no more than there
is room for. So the entries of its memo stay within the limit, and a node that has edges has no more
derivations than the limit says, on cycles too (`Graph.Coherent.derivations_bounded`). Each of them
has a tree.

A node without edges is not asked for the limit. It has its one derivation also where none is
wanted (`Graph.derivations_of_word`).
-/

namespace PackedForest

namespace Derivation

open PackedForest.Graph

variable {g : Graph}

/-- Derivations of a node, no more than are wanted. -/
def Few (g : Graph) (limit : Nat) (id : NodeId) (ds : List Derivation) : Prop :=
  g.AllOf id ds ∧ ds.length ≤ limit

theorem Few.nil (g : Graph) (limit : Nat) (id : NodeId) : Few g limit id [] :=
  ⟨fun _ none => absurd none List.not_mem_nil, Nat.zero_le _⟩

/-- With the derivations by one more edge there are no more than there was room for. -/
theorem Few.append_madeBy {limit : Nat} {id : NodeId} {found : List Derivation}
    (few : Few g limit id found) (room : ¬ limit ≤ found.length) {node : Node}
    (here : g.nodes[id]? = some node) {e : Edge} (building : e ∈ g.edgesOf id)
    {below : List (List Derivation)} (tails : List.Forall₂ g.AllOf e.tails below) :
    Few g limit id (found ++ madeBy (limit - found.length) node e below) := by
  have roomy : 0 < limit - found.length := by omega
  refine ⟨List.forall_mem_append.2 ⟨few.1, allOf_madeBy here building roomy tails⟩, ?_⟩
  have length : (madeBy (limit - found.length) node e below).length ≤ limit - found.length := by
    rw [madeBy_eq tails.length_eq.symm roomy, List.length_map, List.length_take]
    exact Nat.min_le_left ..
  rw [List.length_append]
  omega

theorem enumerate_ends (coherent : g.Coherent) (check : Bool) (limit fuel : Nat) {id : NodeId}
    {node : Node} (here : g.nodes[id]? = some node) :
    Ends (g.stops check id) (g.Within (Few g limit) fuel) (enumerate g check limit fuel id)
      (fun ds => g.AllOf id ds ∧ (node.edges ≠ [] → ds.length ≤ limit))
      (g.Within (Few g limit) fuel) := by
  induction fuel generalizing id node with
  | zero => exact fun _ within => absurd within.fuel (Nat.not_lt_zero _)
  | succ fuel ih =>
      rw [enumerate]
      refine .get_bind fun memo within => ?_
      cases entry : memo[id]? with
      | some found =>
          have few := within.entries entry
          exact .pure ⟨few.1, fun _ => few.2⟩ fun _ same => same ▸ within
      | none =>
          have found : g.node id = .ok node := by rw [Graph.node, here]
          dsimp only
          rw [lift_bind found]
          split
          · next bare =>
              have bare := List.isEmpty_iff.1 bare
              refine .pure ⟨fun d listed => ?_, fun listed => absurd bare listed⟩
                fun _ same => same ▸ within
              rw [List.mem_singleton.1 listed]
              exact .leaf here bare
          · have known := (Array.getElem?_eq_some_iff.1 here).1
            refine .bind (Q := g.Within (Few g limit) fuel) (.modify fun _ same => ?_) fun _ _ => ?_
            · exact same ▸ within.enter known entry (.nil g limit id)
            refine .bind (V := Few g limit id) (Q := g.Within (Few g limit) fuel) ?_
              fun found few => .bind (.modify fun _ inside => (inside.insert few).succ)
                fun _ _ => .pure ⟨few.1, fun _ => few.2⟩ fun _ after => after
            refine .foldlM (fun found few e building => ?_) (.nil g limit id)
            split
            · exact .pure few fun _ after => after
            · next room =>
                refine .bind (V := List.Forall₂ g.AllOf e.tails) (.mapM fun t tail => ?_)
                  fun below tails => ?_
                · have there := Array.getElem?_eq_getElem (coherent.tail_known building tail)
                  exact (ih there).mono (stops_tail coherent building tail) fun _ all => all.1
                · refine .bind (V := (· = madeBy (limit - found.length) node e below))
                    (.lift (byEdge_stops coherent check _ node building below) rfl) ?_
                  rintro _ rfl
                  exact .pure (few.append_madeBy room here building tails) fun _ after => after

end Derivation

/-! ### Trees -/

section Trees

variable {v : Vocabulary} {words : List WordId} (named : ∀ id ∈ words, v.Names id)

include named

theorem leafAt_succeeds (pos : Nat) : Succeeds (leafAt v words pos) := by
  unfold leafAt
  cases here : words[pos]? with
  | none => exact .pure _
  | some id => exact .bind (named id (List.mem_of_getElem? here)) fun _ _ => .pure _

theorem layout_succeeds (stop pos : Nat) (subtrees : List (Tree String String)) :
    Succeeds (layout v words stop pos subtrees) := by
  fun_induction layout v words stop pos subtrees with
  | case1 t rest before ih => exact .bind ih fun _ _ => .pure _
  | case2 pos before t rest other ih =>
      exact .bind (leafAt_succeeds named pos) fun _ _ => .bind ih fun _ _ => .pure _
  | case3 pos before ih =>
      exact .bind (leafAt_succeeds named pos) fun _ _ => .bind ih fun _ _ => .pure _
  | case4 => exact .pure _

namespace Derivation

omit named in
theorem toTrees_succeeds {below : List Derivation}
    (each : ∀ d ∈ below, Succeeds (d.toTree v words)) : Succeeds (toTrees v words below) := by
  induction below with
  | nil => exact .pure _
  | cons d below ih =>
      obtain ⟨here, later⟩ := List.forall_mem_cons.1 each
      exact .bind here fun _ _ => .bind (ih later) fun _ _ => .pure _

/-- If the words and the nodes have names, nothing is missing from the tree of a derivation. -/
theorem toTree_succeeds {g : Graph} (syms : ∀ n ∈ g.nodes.toList, v.Names n.sym) {id : NodeId}
    {d : Derivation} (derives : d.Of g id) : Succeeds (d.toTree v words) := by
  have label : ∀ {id : NodeId} {node : Node}, g.nodes[id]? = some node →
      Succeeds (v.symbol node.sym) := fun here =>
    syms _ (Array.mem_toList_iff.2 (Array.mem_of_getElem? here))
  match d, derives with
  | .leaf node, .leaf here _ => exact .bind (label here) fun _ _ => .pure _
  | .step node e below, .step here _ tails =>
    have each : ∀ d ∈ below, Succeeds (d.toTree v words) := fun d listed =>
      let ⟨id, _, derives⟩ := exists_of_forall₂_left tails.flip listed
      toTree_succeeds syms derives
    exact .bind (label here) fun _ _ => .bind (toTrees_succeeds each) fun _ _ =>
      .bind (layout_succeeds named ..) fun _ _ => .pure _
termination_by d

end Derivation

end Trees

/-! ### What is listed -/

namespace Graph

open PackedForest.Derivation

variable {g : Graph} {id : NodeId} {node : Node}

/-- A node without edges has its one derivation at any limit. -/
theorem derivations_bare (here : g.nodes[id]? = some node) (bare : node.edges = [])
    (check : Bool) (limit : Nat) : g.derivations check id limit = .ok [.leaf node] := by
  have found : g.node id = .ok node := by rw [Graph.node, here]
  have listed : (enumerate g check limit (g.nodes.size + 1) id).run ∅ = .ok ([.leaf node], ∅) := by
    rw [enumerate, StateT.run_bind, StateT.run_get, pure_bind, Std.TreeMap.getElem?_emptyc]
    dsimp only
    rw [lift_bind found, if_pos (List.isEmpty_iff.2 bare)]
    rfl
  rw [derivations, listed]
  rfl

theorem length_derivationTrees {v : Vocabulary} {check : Bool} {limit : Nat} {ds : List Derivation}
    (listed : g.derivations check id limit = .ok ds) {ts : List (Tree String String)}
    (built : g.derivationTrees v check id limit = .ok ts) : ts.length = ds.length := by
  rw [derivationTrees, listed] at built
  exact (mapM_eq_ok_iff.1 built).length_eq.symm

/-- A node with edges has no more derivations than the limit says, and a node without edges has one
at any limit. There is a tree for each of them, and for nothing else. Where probabilities are
checked, the fault of an edge that the node leads to may come instead. -/
theorem Coherent.derivations_bounded (coherent : g.Coherent) (here : g.nodes[id]? = some node)
    (check : Bool) (limit : Nat) :
    (∃ ds, g.derivations check id limit = .ok ds ∧
      (node.edges ≠ [] → ds.length ≤ limit) ∧ (node.edges = [] → ds = [.leaf node]) ∧
      ∀ v : Vocabulary,
        (∀ ts, g.derivationTrees v check id limit = .ok ts → ts.length = ds.length) ∧
        ((∀ w ∈ g.words, v.Names w) → (∀ n ∈ g.nodes.toList, v.Names n.sym) →
          Succeeds (g.derivationTrees v check id limit))) ∨
    check = true ∧ ∃ fault, g.Improbable id fault ∧
      g.derivations check id limit = .error fault := by
  have ends := enumerate_ends coherent check limit (g.nodes.size + 1) here ∅ (.empty g _)
  rcases ends with ⟨ds, memo, runs, ⟨all, few⟩, -⟩ | ⟨fault, ⟨checked, improbable⟩, stopped⟩
  · have listed : g.derivations check id limit = .ok ds := by
      rw [derivations, runs]
      rfl
    refine .inl ⟨ds, listed, few, fun bare => ?_, fun v => ⟨fun ts => length_derivationTrees listed,
      fun words syms => ?_⟩⟩
    · exact Except.ok.inj (listed.symm.trans (derivations_bare here bare check limit))
    · rw [derivationTrees, listed]
      exact Succeeds.mapM fun d member => toTree_succeeds words syms (all d member)
  · refine .inr ⟨checked, fault, improbable, ?_⟩
    rw [derivations, stopped]
    rfl

/-- Without room there is nothing on a cycle. -/
theorem Coherent.derivations_bounded_circle : circle.Coherent ∧
    ∃ node, circle.nodes[0]? = some node ∧ node.edges ≠ [] ∧
      circle.derivations false 0 0 = .ok [] := by
  have coherent := admitted_circle.coherent
  have here : circle.nodes[0]? = some circle.nodes[0] := rfl
  obtain ⟨ds, listed, few, -⟩ | stopped := coherent.derivations_bounded here false 0
  · have edges : circle.nodes[0].edges ≠ [] := by decide
    rw [List.length_eq_zero_iff.1 (Nat.le_zero.1 (few edges))] at listed
    exact ⟨coherent, _, here, edges, listed⟩
  · cases stopped.1

/-- The node of a word has a derivation and a tree where none is wanted. -/
theorem derivations_of_word : (ofWords [0]).Built ∧
    (ofWords [0]).derivations true 0 0 = .ok [.leaf ⟨0, 0, ⟨0, 1⟩, .unset, [], none⟩] ∧
    (ofWords [0]).derivationTrees (Vocabulary.empty.intern "a").2 true 0 0 =
      .ok [.branch "a" ⟨0, 1⟩ []] :=
  ⟨.ofWords [0], rfl, rfl⟩

end Graph

end PackedForest
