import PackedForest.Derivation.Tree
import PackedForest.Proofs.Graph.Enumeration
import PackedForest.Proofs.Renaming.Graph

/-!
# Derivations under a renaming

The derivations of a renamed graph are those of the graph, renamed, in the same order and up to the
same limit, and an enumeration that stops does so with the same fault (`Graph.derivations_rename`).
The two enumerations keep step: `Follows` says so of computations on memos that correspond, and
there is a rule for each way in which they are put together.

In a vocabulary in which the new numbers name what the old ones did, the trees are the same
(`Graph.Renames.derivationTrees_eq`).
-/

namespace PackedForest

open Vocabulary

namespace Derivation

variable {f : Nat → Nat}

mutual

def rename (f : Nat → Nat) : Derivation → Derivation
  | leaf node => leaf (node.rename f)
  | step node edge below => step (node.rename f) (edge.rename f) (renameBelow f below)

def renameBelow (f : Nat → Nat) : List Derivation → List Derivation
  | [] => []
  | d :: below => d.rename f :: renameBelow f below

end

theorem renameBelow_eq_map (below : List Derivation) :
    renameBelow f below = below.map (rename f) := by
  induction below with
  | nil => rfl
  | cons d below ih => rw [renameBelow, ih, List.map_cons]

theorem rename_step (node : Node) (edge : Edge) (below : List Derivation) :
    (step node edge below).rename f =
      step (node.rename f) (edge.rename f) (below.map (rename f)) := by
  rw [rename, renameBelow_eq_map]

mutual

theorem edges_rename : ∀ d : Derivation, (d.rename f).edges = d.edges.map (.rename f)
  | leaf _ => rfl
  | step node edge below => by
      rw [rename, edges, edges, edgesBelow_rename below, List.map_cons]

theorem edgesBelow_rename : ∀ below : List Derivation,
    edgesBelow (renameBelow f below) = (edgesBelow below).map (.rename f)
  | [] => rfl
  | d :: below => by
      rw [renameBelow, edgesBelow, edgesBelow, edges_rename d, edgesBelow_rename below,
        List.map_append]

end

mutual

theorem probability_rename : ∀ d : Derivation, (d.rename f).probability = d.probability
  | leaf _ => rfl
  | step node edge below => by
      rw [rename, probability, probability, timesBelow_rename _ below]
      rfl

theorem timesBelow_rename (product : Float) : ∀ below : List Derivation,
    timesBelow product (renameBelow f below) = timesBelow product below
  | [] => rfl
  | d :: below => by
      rw [renameBelow, timesBelow, timesBelow, probability_rename d, timesBelow_rename _ below]

end

/-! ### Enumerations that keep step -/

/-- The entries of the second memo are those of the first, renamed. -/
def RenamedMemo (f : Nat → Nat) (memo memo' : Memo) : Prop :=
  ∀ id : NodeId, memo'[id]? = memo[id]?.map (List.map (rename f))

theorem RenamedMemo.insert {memo memo' : Memo} (renamed : RenamedMemo f memo memo') (id : NodeId)
    (found : List Derivation) :
    RenamedMemo f (memo.insert id found) (memo'.insert id (found.map (rename f))) := by
  intro other
  rw [Std.TreeMap.getElem?_insert, Std.TreeMap.getElem?_insert, renamed other]
  split <;> rfl

section Follows

variable {α β γ δ ι κ : Type} {h : α → β}

/-- From memos that correspond, the second computation does as the first does. It stops with the
same fault, or its value is the image of the other and the memos still correspond. -/
def Follows (f : Nat → Nat) (h : α → β) (x : Enumerating α) (y : Enumerating β) : Prop :=
  ∀ memo memo', RenamedMemo f memo memo' →
    match x.run memo with
    | .error fault => y.run memo' = .error fault
    | .ok (a, next) => ∃ next', y.run memo' = .ok (h a, next') ∧ RenamedMemo f next next'

namespace Follows

theorem pure (a : α) : Follows f h (Pure.pure a) (Pure.pure (h a)) :=
  fun _ memo' renamed => ⟨memo', rfl, renamed⟩

theorem bind {k : γ → δ} {x : Enumerating α} {y : Enumerating β} {F : α → Enumerating γ}
    {G : β → Enumerating δ} (first : Follows f h x y) (rest : ∀ a, Follows f k (F a) (G (h a))) :
    Follows f k (x >>= F) (y >>= G) := by
  intro memo memo' renamed
  have here := first memo memo' renamed
  rw [StateT.run_bind, StateT.run_bind]
  cases ran : x.run memo with
  | error fault =>
      rw [ran] at here
      rw [here]
      rfl
  | ok r =>
      rw [ran] at here
      obtain ⟨next', ran', renamed'⟩ := here
      rw [ran']
      exact rest r.1 r.2 next' renamed'

theorem get_bind {F : Memo → Enumerating α} {G : Memo → Enumerating β}
    (rest : ∀ memo memo', RenamedMemo f memo memo' → Follows f h (F memo) (G memo')) :
    Follows f h (get >>= F) (get >>= G) :=
  fun memo memo' renamed => rest memo memo' renamed memo memo' renamed

theorem insert (id : NodeId) (found : List Derivation) :
    Follows f (fun done : PUnit => done) (modify (·.insert id found))
      (modify (·.insert id (found.map (rename f)))) :=
  fun _ _ renamed => ⟨_, rfl, renamed.insert id found⟩

theorem lift {x : Except Fault α} {y : Except Fault β} (same : y = x.map h) :
    Follows f h (liftM x) (liftM y) := by
  subst same
  intro memo memo' renamed
  cases x with
  | error fault => exact rfl
  | ok a => exact ⟨memo', rfl, renamed⟩

theorem foldlM {k : ι → κ} {F : α → ι → Enumerating α} {G : β → κ → Enumerating β}
    (step : ∀ a i, Follows f h (F a i) (G (h a) (k i))) (is : List ι) (a : α) :
    Follows f h (is.foldlM F a) ((is.map k).foldlM G (h a)) := by
  induction is generalizing a with
  | nil => exact .pure a
  | cons i is ih =>
      rw [List.map_cons, List.foldlM_cons, List.foldlM_cons]
      exact .bind (step a i) ih

theorem mapM {F : ι → Enumerating α} {G : ι → Enumerating β}
    (step : ∀ i, Follows f h (F i) (G i)) (is : List ι) :
    Follows f (List.map h) (is.mapM F) (is.mapM G) := by
  induction is with
  | nil => exact .pure []
  | cons i is ih =>
      rw [List.mapM_cons, List.mapM_cons]
      exact .bind (step i) fun a => .bind ih fun as => .pure (a :: as)

end Follows

end Follows

theorem byEdge_rename (check : Bool) (room : Nat) (node : Node) (edge : Edge)
    (below : List (List Derivation)) :
    byEdge check room (node.rename f) (edge.rename f) (below.map (List.map (rename f))) =
      (byEdge check room node edge below).map (List.map (rename f)) := by
  have picked : (selections (below.map (List.map (rename f)))).take room =
      ((selections below).take room).map (List.map (rename f)) := by
    cases below with
    | nil => simp [selections]
    | cons ds below =>
        rw [List.map_cons, selections_of_ne_nil (List.cons_ne_nil _ _),
          selections_of_ne_nil (List.cons_ne_nil _ _), ← List.map_cons, picks_map, List.map_take]
  have picks_eq : (if (edge.rename f).tails.isEmpty then [[]]
        else (selections (below.map (List.map (rename f)))).take room) =
      (if edge.tails.isEmpty then [[]] else (selections below).take room).map
        (List.map (rename f)) := by
    rw [picked]
    change (if edge.tails.isEmpty then _ else _) = _
    split <;> rfl
  have steps : step (node.rename f) (edge.rename f) ∘ List.map (rename f) =
      rename f ∘ step node edge := funext fun below => (rename_step node edge below).symm
  have checked : (edge.rename f).checkedProbability check = edge.checkedProbability check := rfl
  unfold byEdge
  rw [picks_eq, checked]
  generalize (if edge.tails.isEmpty then [[]] else (selections below).take room) = picks
  dsimp only
  rw [List.isEmpty_map, List.map_map, steps, ← List.map_map]
  split
  · cases edge.checkedProbability check <;> rfl
  · rfl

theorem enumerate_rename (g : Graph) (check : Bool) (limit fuel : Nat) (id : NodeId) :
    Follows f (List.map (rename f)) (enumerate g check limit fuel id)
      (enumerate (g.rename f) check limit fuel id) := by
  induction fuel generalizing id with
  | zero => exact .pure []
  | succ fuel ih =>
      rw [enumerate, enumerate]
      refine .get_bind fun memo memo' renamed => ?_
      rw [renamed id]
      cases memo[id]? with
      | some found => exact .pure found
      | none =>
          refine .bind (.lift (g.node_rename f id)) fun node => ?_
          change Follows f _ _ (if node.edges.isEmpty then _ else _)
          split
          · exact .pure [leaf node]
          · refine .bind (.insert id []) fun _ => ?_
            rw [g.edgesOf_rename]
            refine .bind (.foldlM (fun found edge => ?_) _ []) fun found =>
              .bind (.insert id found) fun _ => .pure found
            rw [List.length_map]
            split
            · exact .pure found
            · refine .bind (.mapM ih edge.tails) fun below => ?_
              refine .bind (.lift (byEdge_rename check _ node edge below)) fun more => ?_
              rw [← List.map_append]
              exact .pure (found ++ more)

end Derivation

/-- The derivations of a renamed graph are those of the graph, renamed. -/
theorem Graph.derivations_rename (f : Nat → Nat) (g : Graph) (check : Bool) (id : NodeId)
    (limit : Nat) : (g.rename f).derivations check id limit =
      (g.derivations check id limit).map (List.map (.rename f)) := by
  have ran := Derivation.enumerate_rename (f := f) g check limit (g.nodes.size + 1) id ∅ ∅
    fun other => by simp
  rw [derivations, derivations, g.size_nodes_rename]
  cases result : (Derivation.enumerate g check limit (g.nodes.size + 1) id).run ∅ with
  | error fault =>
      rw [result] at ran
      rw [ran]
      rfl
  | ok r =>
      rw [result] at ran
      obtain ⟨next, ran, -⟩ := ran
      rw [ran]
      rfl

/-- Derivations that are enumerated are derivations of the node. -/
theorem Graph.of_mem_derivations {g : Graph} (indexed : g.Indexed) (acyclic : g.Acyclic)
    {check : Bool} {id : NodeId} {limit : Nat} {ds : List Derivation}
    (found : g.derivations check id limit = .ok ds) {d : Derivation} (listed : d ∈ ds) :
    d.Of g id := by
  have inside : id < g.nodes.size := by
    by_contra outside
    have missing : g.nodes[id]? = none := Array.getElem?_eq_none (Nat.not_lt.1 outside)
    have stopped : g.derivations check id limit =
        .error (.nodeOutOfRange id g.nodes.size) := by
      simp [derivations, Derivation.enumerate, node, missing]
      rfl
    cases stopped.symm.trans found
  rcases derivations_cases indexed acyclic check inside limit with fine | ⟨-, fault, -, stopped⟩
  · obtain rfl := Except.ok.inj (fine.symm.trans found)
    exact of_mem_limited indexed acyclic listed
  · cases stopped.symm.trans found

/-! ### Trees -/

variable {u w w' : Vocabulary} {f : Nat → Nat} {g : Graph}

theorem Derivation.toTrees_rename {words words' : List WordId} {below : List Derivation}
    (same : ∀ d ∈ below, (d.rename f).toTree w' words' = d.toTree w words) :
    toTrees w' words' (renameBelow f below) = toTrees w words below := by
  induction below with
  | nil => rfl
  | cons d below ih =>
      obtain ⟨first, later⟩ := List.forall_mem_cons.1 same
      rw [renameBelow, toTrees, toTrees, first, ih later]

namespace Graph.Renames

variable (h : g.Renames u w w' f)

include h

theorem leafAt_eq (pos : Nat) : leafAt w' (g.rename f).words pos = leafAt w g.words pos := by
  rw [leafAt, leafAt, rename, List.getElem?_map]
  cases here : g.words[pos]? with
  | none => rfl
  | some id =>
      rw [Option.map_some]
      dsimp only
      rw [h.words id (List.mem_of_getElem? here)]

theorem layout_eq (stop pos : Nat) (subtrees : List (Tree String String)) :
    layout w' (g.rename f).words stop pos subtrees = layout w g.words stop pos subtrees := by
  fun_induction layout w g.words stop pos subtrees with
  | case1 t rest before ih => rw [layout, if_pos before, if_pos rfl, ih]
  | case2 pos before t rest elsewhere ih =>
      rw [layout, if_pos before, if_neg elsewhere, h.leafAt_eq, ih]
  | case3 pos before ih => rw [layout, if_pos before, h.leafAt_eq, ih]
  | case4 pos subtrees after =>
      unfold layout
      rw [if_neg after]

theorem toTree_eq {id : NodeId} {d : Derivation} (derives : d.Of g id) :
    (d.rename f).toTree w' (g.rename f).words = d.toTree w g.words := by
  have sym : ∀ {id : NodeId} {node : Node}, g.nodes[id]? = some node →
      w'.symbol (node.rename f).sym = w.symbol node.sym := fun here =>
    h.vocabulary.symbol_eq (h.sym _ (Array.mem_toList_iff.2 (Array.mem_of_getElem? here)))
  match d, derives with
  | .leaf node, .leaf here _ =>
    rw [Derivation.rename, Derivation.toTree, Derivation.toTree, sym here]
    rfl
  | .step node e below, .step here _ tails =>
    have same : ∀ d ∈ below,
        (d.rename f).toTree w' (g.rename f).words = d.toTree w g.words := fun d listed =>
      let ⟨id, _, derives⟩ := exists_of_forall₂_left tails.flip listed
      toTree_eq derives
    have subtrees := Derivation.toTrees_rename same
    rw [Derivation.rename, Derivation.toTree, Derivation.toTree, sym here, subtrees]
    simp only [h.layout_eq]
    rfl
termination_by d

/-- The trees of the derivations of a node are the same. -/
theorem derivationTrees_eq (indexed : g.Indexed) (acyclic : g.Acyclic) (check : Bool)
    (id : NodeId) (limit : Nat) : (g.rename f).derivationTrees w' check id limit =
      g.derivationTrees w check id limit := by
  rw [derivationTrees, derivationTrees, derivations_rename]
  cases found : g.derivations check id limit with
  | error fault => rfl
  | ok ds =>
      exact mapM_map_congr fun d listed =>
        h.toTree_eq (of_mem_derivations indexed acyclic found listed)

end Graph.Renames

end PackedForest
