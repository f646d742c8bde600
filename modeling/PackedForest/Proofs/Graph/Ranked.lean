import PackedForest.Count
import PackedForest.Derivation
import PackedForest.Proofs.Graph.Arena

/-!
# Graphs without cycles

A graph has no cycle if its nodes can be ranked so that the tails of an edge rank below its head.

Counting and enumerating derivations keep an entry in their memo for a node that is still in
progress, in case it is met again below itself. `countWatched` and `enumerateWatched` are the same
computations with the nodes in progress handed down as a path; they give up where the memo
answers for one of these. In a ranked graph they never do, and agree with the originals.
-/

namespace PackedForest

/-- Tails rank below their head. -/
def Graph.Ranked (g : Graph) (rank : NodeId → Nat) : Prop :=
  ∀ e ∈ g.edges.toList, ∀ t ∈ e.tails, rank t < rank e.head

/-- A computation that runs as another one does in a smaller monad. -/
def Mirrors {m n : Type → Type} [Monad m] [Monad n] [MonadLiftT m n] {σ α : Type}
    (x : StateT σ n α) (y : StateT σ m α) : Prop := ∀ s, x.run s = monadLift (y.run s)

namespace Mirrors

variable {m n : Type → Type} [Monad m] [Monad n] [MonadLiftT m n] [LawfulMonadLiftT m n]
variable {σ α β : Type}

theorem pure (a : α) : Mirrors (Pure.pure a : StateT σ n α) (Pure.pure a : StateT σ m α) := by
  intro s
  rw [StateT.run_pure, StateT.run_pure, monadLift_pure]

theorem bind {x : StateT σ n α} {y : StateT σ m α} {f : α → StateT σ n β} {g : α → StateT σ m β}
    (first : Mirrors x y) (rest : ∀ a, Mirrors (f a) (g a)) : Mirrors (x >>= f) (y >>= g) := by
  intro s
  rw [StateT.run_bind, StateT.run_bind, first s, monadLift_bind]
  exact bind_congr fun r => rest r.1 r.2

theorem foldlM {as : List α} {f : β → α → StateT σ n β} {g : β → α → StateT σ m β}
    (step : ∀ b, ∀ a ∈ as, Mirrors (f b a) (g b a)) (b : β) :
    Mirrors (as.foldlM f b) (as.foldlM g b) := by
  induction as generalizing b with
  | nil => exact .pure b
  | cons a as ih =>
      rw [List.foldlM_cons, List.foldlM_cons]
      exact .bind (step b a List.mem_cons_self) fun b =>
        ih (fun b a later => step b a (List.mem_cons_of_mem _ later)) b

theorem mapM [LawfulMonad m] [LawfulMonad n] {as : List α} {f : α → StateT σ n β}
    {g : α → StateT σ m β} (step : ∀ a ∈ as, Mirrors (f a) (g a)) :
    Mirrors (as.mapM f) (as.mapM g) := by
  induction as with
  | nil => exact .pure []
  | cons a as ih =>
      rw [List.mapM_cons, List.mapM_cons]
      exact .bind (step a List.mem_cons_self) fun b =>
        .bind (ih fun a later => step a (List.mem_cons_of_mem _ later)) fun bs => .pure (b :: bs)

end Mirrors

namespace Graph

/-- The count of a node, below the nodes of a path that are still being counted. It gives up where
the memo answers for a node of the path. -/
def countWatched (g : Graph) :
    (fuel : Nat) → (path : List NodeId) → NodeId → StateT CountMemo Option Nat
  | 0, _, _ => return 0
  | fuel + 1, path, id => do
    if let some count := (← get)[id]? then
      if id ∈ path then failure
      return count
    let edges := g.edgesOf id
    if edges.isEmpty then
      modify (·.insert id 1)
      return 1
    modify (·.insert id 0)
    let total ← edges.foldlM (fun total edge => do
      let product ← edge.tails.foldlM (fun product tail => do
        return saturatingMul product (← countWatched g fuel (id :: path) tail)) 1
      return saturatingAdd total product) 0
    modify (·.insert id total)
    return total

section Ranked

variable {g : Graph} (indexed : g.Indexed) {rank : NodeId → Nat} (ranked : g.Ranked rank)

include indexed ranked

/-- Further down the path, all nodes on it rank higher. -/
theorem below_tail {path : List NodeId} {id : NodeId} (below : ∀ node ∈ path, rank id < rank node)
    {e : Edge} (building : e ∈ g.edgesOf id) {tail : NodeId} (listed : tail ∈ e.tails) :
    ∀ node ∈ id :: path, rank tail < rank node := by
  obtain ⟨stored, head⟩ := indexed.mem_edgesOf building
  have lower : rank tail < rank id := head ▸ ranked e stored tail listed
  intro node member
  rcases List.mem_cons.1 member with rfl | above
  · exact lower
  · exact Nat.lt_trans lower (below node above)

theorem countWatched_mirrors (fuel : Nat) {path : List NodeId} {id : NodeId}
    (below : ∀ node ∈ path, rank id < rank node) :
    Mirrors (g.countWatched fuel path id) (g.countFrom fuel id) := by
  induction fuel generalizing path id with
  | zero => exact .pure 0
  | succ fuel ih =>
      rw [countWatched, countFrom]
      have new : id ∉ path := fun member => Nat.lt_irrefl _ (below id member)
      refine .bind (fun _ => rfl) fun memo => ?_
      cases memo[id]? with
      | some count =>
          dsimp only
          rw [if_neg new]
          exact .pure count
      | none =>
          dsimp only
          split
          · exact .bind (fun _ => rfl) fun _ => .pure 1
          · refine .bind (fun _ => rfl) fun _ => .bind ?_ fun total =>
              .bind (fun _ => rfl) fun _ => .pure total
            refine .foldlM (fun total e building => .bind ?_ fun product => .pure _) 0
            refine .foldlM (fun product tail listed => .bind (ih ?_) fun count => .pure _) 1
            exact below_tail indexed ranked below building listed

end Ranked

end Graph

namespace Derivation

/-- The derivations of a node, below the nodes of a path that are still being worked on. It gives
up where the memo answers for a node of the path. -/
def enumerateWatched (g : Graph) (check : Bool) (limit : Nat) :
    (fuel : Nat) → (path : List NodeId) → NodeId →
      StateT Memo (ExceptT Fault Option) (List Derivation)
  | 0, _, _ => return []
  | fuel + 1, path, id => do
    if let some found := (← get)[id]? then
      if id ∈ path then (none : Option Unit)
      return found
    let node ← g.node id
    if node.edges.isEmpty then return [leaf node]
    modify (·.insert id [])
    let found ← (g.edgesOf id).foldlM (fun (found : List Derivation) edge => do
      if limit ≤ found.length then return found
      let below ← edge.tails.mapM (enumerateWatched g check limit fuel (id :: path))
      return found ++ (← byEdge check (limit - found.length) node edge below)) []
    modify (·.insert id found)
    return found

theorem liftM_mirrors {α : Type} (x : Except Fault α) :
    Mirrors (liftM x : StateT Memo (ExceptT Fault Option) α) (liftM x : Enumerating α) := by
  intro memo
  cases x <;> rfl

theorem enumerateWatched_mirrors {g : Graph} (indexed : g.Indexed) {rank : NodeId → Nat}
    (ranked : g.Ranked rank) (check : Bool) (limit fuel : Nat) {path : List NodeId} {id : NodeId}
    (below : ∀ node ∈ path, rank id < rank node) :
    Mirrors (enumerateWatched g check limit fuel path id) (enumerate g check limit fuel id) := by
  induction fuel generalizing path id with
  | zero => exact .pure []
  | succ fuel ih =>
      rw [enumerateWatched, enumerate]
      have new : id ∉ path := fun member => Nat.lt_irrefl _ (below id member)
      refine .bind (fun _ => rfl) fun memo => ?_
      cases memo[id]? with
      | some found =>
          dsimp only
          rw [if_neg new]
          exact .pure found
      | none =>
          dsimp only
          refine .bind (liftM_mirrors _) fun node => ?_
          split
          · exact .pure _
          · refine .bind (fun _ => rfl) fun _ => .bind ?_ fun found =>
              .bind (fun _ => rfl) fun _ => .pure found
            refine .foldlM (fun found e building => ?_) []
            split
            · exact .pure found
            · refine .bind (.mapM fun tail listed => ih ?_) fun below =>
                .bind (liftM_mirrors _) fun more => .pure _
              exact Graph.below_tail indexed ranked below building listed

end Derivation

end PackedForest
