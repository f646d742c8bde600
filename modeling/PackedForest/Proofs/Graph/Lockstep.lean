import PackedForest.Proofs.Forest.Twins
import PackedForest.Proofs.Graph.Counting
import PackedForest.Proofs.Graph.Enumeration

/-!
# Derivations in two graphs

`Graph.Mirrored` says that two graphs are the same below corresponding nodes: the nodes look alike,
and the edges that build them are alike in pairs, in the same order. Then everything that is
computed from such nodes is the same, too. Their counts are equal (`Mirrored.derivationCount_eq`),
and their derivations are alike in pairs, in the same order, or both enumerations stop for the same
reason (`Mirrored.derivations_alike`).

The enumerations run in lockstep. `Lockstep` relates two computations that take related states to
related values and states, and there is a rule for each way in which they are put together.
-/

namespace PackedForest

/-- Faults that differ at most in the number of the edge they are about. -/
inductive Fault.Alike : Fault → Fault → Prop
  | refl (fault : Fault) : Alike fault fault
  | improbable (id id' : EdgeId) (probability : Float) :
      Alike (.improbableEdge id probability) (.improbableEdge id' probability)

/-- Both computations stop for the same reason, or they come to related values. -/
inductive AlikeOutcome {α β : Type} (V : α → β → Prop) : Except Fault α → Except Fault β → Prop
  | stopped {fault fault' : Fault} (reason : fault.Alike fault') :
      AlikeOutcome V (.error fault) (.error fault')
  | value {a : α} {b : β} (related : V a b) : AlikeOutcome V (.ok a) (.ok b)

namespace AlikeOutcome

variable {α β γ δ : Type} {V : α → β → Prop} {W : γ → δ → Prop}

theorem bind {x : Except Fault α} {y : Except Fault β} {f : α → Except Fault γ}
    {g : β → Except Fault δ} (first : AlikeOutcome V x y)
    (rest : ∀ a b, V a b → AlikeOutcome W (f a) (g b)) : AlikeOutcome W (x >>= f) (y >>= g) := by
  cases first with
  | stopped reason => exact .stopped reason
  | value related => exact rest _ _ related

end AlikeOutcome

section Lockstep

variable {σ τ α β γ δ : Type} {S : σ → τ → Prop} {V : α → β → Prop} {W : γ → δ → Prop}

/-- From related states the computations come to related values and states, or both stop. -/
def Lockstep (S : σ → τ → Prop) (V : α → β → Prop) (x : StateT σ (Except Fault) α)
    (y : StateT τ (Except Fault) β) : Prop :=
  ∀ s t, S s t → AlikeOutcome (fun r r' => V r.1 r'.1 ∧ S r.2 r'.2) (x.run s) (y.run t)

namespace Lockstep

theorem pure {a : α} {b : β} (related : V a b) :
    Lockstep S V (Pure.pure a : StateT σ (Except Fault) α)
      (Pure.pure b : StateT τ (Except Fault) β) :=
  fun _ _ states => .value ⟨related, states⟩

theorem bind {x : StateT σ (Except Fault) α} {y : StateT τ (Except Fault) β}
    {f : α → StateT σ (Except Fault) γ} {g : β → StateT τ (Except Fault) δ}
    (first : Lockstep S V x y) (rest : ∀ a b, V a b → Lockstep S W (f a) (g b)) :
    Lockstep S W (x >>= f) (y >>= g) := by
  intro s t states
  rw [StateT.run_bind, StateT.run_bind]
  exact (first s t states).bind fun r r' both => rest r.1 r'.1 both.1 r.2 r'.2 both.2

theorem get_bind {f : σ → StateT σ (Except Fault) γ} {g : τ → StateT τ (Except Fault) δ}
    (rest : ∀ s t, S s t → Lockstep S W (f s) (g t)) :
    Lockstep S W (get >>= f) (get >>= g) := by
  intro s t states
  have runs : (get >>= f : StateT σ (Except Fault) γ).run s = (f s).run s := rfl
  have runs' : (get >>= g : StateT τ (Except Fault) δ).run t = (g t).run t := rfl
  rw [runs, runs']
  exact rest s t states s t states

theorem modify {f : σ → σ} {g : τ → τ} (changed : ∀ s t, S s t → S (f s) (g t)) :
    Lockstep S (fun _ _ => True) (modify f : StateT σ (Except Fault) PUnit)
      (modify g : StateT τ (Except Fault) PUnit) :=
  fun s t states => .value ⟨trivial, changed s t states⟩

theorem lift {x : Except Fault α} {y : Except Fault β} (outcomes : AlikeOutcome V x y) :
    Lockstep S V (liftM x : StateT σ (Except Fault) α)
      (liftM y : StateT τ (Except Fault) β) := by
  intro s t states
  cases outcomes with
  | stopped reason => exact .stopped reason
  | value related => exact .value ⟨related, states⟩

theorem foldlM {E : γ → δ → Prop} {as : List γ} {bs : List δ}
    (elements : List.Forall₂ E as bs) {f : α → γ → StateT σ (Except Fault) α}
    {g : β → δ → StateT τ (Except Fault) β}
    (step : ∀ a b x y, V a b → E x y → Lockstep S V (f a x) (g b y)) {a : α} {b : β}
    (start : V a b) : Lockstep S V (as.foldlM f a) (bs.foldlM g b) := by
  induction elements generalizing a b with
  | nil => exact .pure start
  | cons first _ ih =>
      rw [List.foldlM_cons, List.foldlM_cons]
      exact .bind (step _ _ _ _ start first) fun a b next => ih next

theorem mapM {E : γ → δ → Prop} {as : List γ} {bs : List δ}
    (elements : List.Forall₂ E as bs) {f : γ → StateT σ (Except Fault) α}
    {g : δ → StateT τ (Except Fault) β}
    (step : ∀ x y, E x y → Lockstep S V (f x) (g y)) :
    Lockstep S (List.Forall₂ V) (as.mapM f) (bs.mapM g) := by
  induction elements with
  | nil => exact .pure .nil
  | cons first _ ih =>
      rw [List.mapM_cons, List.mapM_cons]
      refine .bind (step _ _ first) fun a b value => ?_
      exact .bind ih fun as bs values => .pure (.cons value values)

end Lockstep

end Lockstep

/-- Derivations that only differ in the numbers of nodes and edges. Their nodes look alike. -/
inductive Derivation.Alike (R : NodeId → NodeId → Prop) (N : Node → Node → Prop) :
    Derivation → Derivation → Prop
  | leaf {node node' : Node} (nodes : N node node') : Alike R N (.leaf node) (.leaf node')
  | step {node node' : Node} {e e' : Edge} {below below' : List Derivation}
      (nodes : N node node') (edges : e.unnumbered.Alike R e'.unnumbered)
      (tails : List.Forall₂ (Alike R N) below below') :
      Alike R N (.step node e below) (.step node' e' below')

theorem Edge.checkedProbability_alike (check : Bool) {e e' : Edge}
    (same : e.probability = e'.probability) :
    AlikeOutcome (fun _ _ => True) (e.checkedProbability check) (e'.checkedProbability check) := by
  unfold checkedProbability
  rw [same]
  split
  · exact .stopped (.improbable ..)
  · exact .value trivial

theorem Derivation.byEdge_alike {R : NodeId → NodeId → Prop} {N : Node → Node → Prop}
    (check : Bool) (room : Nat) {n n' : Node} (nodes : N n n') {e e' : Edge}
    (edges : e.unnumbered.Alike R e'.unnumbered) {below below' : List (List Derivation)}
    (alike : List.Forall₂ (List.Forall₂ (Alike R N)) below below') :
    AlikeOutcome (List.Forall₂ (Alike R N)) (byEdge check room n e below)
      (byEdge check room n' e' below') := by
  have bare : e.tails.isEmpty = e'.tails.isEmpty := by
    have sizes : e.tails.length = e'.tails.length := edges.tails.length_eq
    rw [Bool.eq_iff_iff, List.isEmpty_iff_length_eq_zero, sizes, List.isEmpty_iff_length_eq_zero]
  have picked : List.Forall₂ (List.Forall₂ (Alike R N))
      (if e.tails.isEmpty then [[]] else (selections below).take room)
      (if e'.tails.isEmpty then [[]] else (selections below').take room) := by
    rw [bare]
    split
    · exact .cons .nil .nil
    · exact List.forall₂_take room (forall₂_selections alike)
  unfold byEdge
  generalize (if e.tails.isEmpty then [[]] else (selections below).take room) = picks,
    (if e'.tails.isEmpty then [[]] else (selections below').take room) = picks' at picked
  have steps : List.Forall₂ (Alike R N) (picks.map (step n e)) (picks'.map (step n' e')) := by
    rw [List.forall₂_map_left_iff, List.forall₂_map_right_iff]
    exact picked.imp fun _ _ below => .step nodes edges below
  cases picked with
  | nil => exact .value .nil
  | cons first rest =>
      exact (Edge.checkedProbability_alike check edges.probability).bind fun _ _ _ => .value steps

/-- Two graphs are the same below nodes that correspond. -/
structure Graph.Mirrored (R : NodeId → NodeId → Prop) (N : Node → Node → Prop) (g g' : Graph) :
    Prop where
  right_unique : ∀ {a b b'}, R a b → R a b' → b = b'
  left_unique : ∀ {a a' b}, R a b → R a' b → a = a'
  node : ∀ {a b}, R a b → ∃ n n', g.nodes[a]? = some n ∧ g'.nodes[b]? = some n' ∧ N n n'
  edges : ∀ {a b}, R a b → List.Forall₂ (fun e e' => e.unnumbered.Alike R e'.unnumbered)
    (g.edgesOf a) (g'.edgesOf b)

/-- Memos with the same entries for corresponding nodes. -/
def AlikeMemo (R : NodeId → NodeId → Prop) (N : Node → Node → Prop)
    (memo memo' : Derivation.Memo) : Prop :=
  ∀ a b, R a b → Option.Rel (List.Forall₂ (Derivation.Alike R N)) memo[a]? memo'[b]?

namespace Graph.Mirrored

variable {R : NodeId → NodeId → Prop} {N : Node → Node → Prop} {g g' : Graph}
variable (h : g.Mirrored R N g') {a b : NodeId}

include h

theorem insert {memo memo' : Derivation.Memo} (memos : AlikeMemo R N memo memo')
    (here : R a b) {found found' : List Derivation}
    (alike : List.Forall₂ (Derivation.Alike R N) found found') :
    AlikeMemo R N (memo.insert a found) (memo'.insert b found') := by
  intro x y there
  rw [Std.TreeMap.getElem?_insert, Std.TreeMap.getElem?_insert]
  have same : a = x ↔ b = y := by
    constructor
    · rintro rfl
      exact h.right_unique here there
    · rintro rfl
      exact h.left_unique here there
  simp only [Std.compare_eq_iff_eq, same]
  split
  · exact .some alike
  · exact memos x y there

/-- Corresponding nodes both have edges, or neither has. -/
theorem isEmpty_edges_eq (indexed : g.Indexed) (indexed' : g'.Indexed) (here : R a b)
    {n n' : Node} (node : g.nodes[a]? = some n) (node' : g'.nodes[b]? = some n') :
    n.edges.isEmpty = n'.edges.isEmpty := by
  rw [Bool.eq_iff_iff, List.isEmpty_iff, List.isEmpty_iff, ← indexed.edgesOf_eq_nil_iff node,
    ← indexed'.edgesOf_eq_nil_iff node', ← List.length_eq_zero_iff, (h.edges here).length_eq,
    List.length_eq_zero_iff]

variable (indexed : g.Indexed) (acyclic : g.Acyclic) (indexed' : g'.Indexed)
variable (acyclic' : g'.Acyclic)

/-- Corresponding nodes have as many derivations, and these are alike in pairs. -/
theorem unfold_alike (here : R a b) : List.Forall₂ (Derivation.Alike R N)
    (unfold indexed acyclic a) (unfold indexed' acyclic' b) := by
  induction b using tails_induction indexed' acyclic' generalizing a with
  | step b ih =>
      obtain ⟨n, n', node, node', nodes⟩ := h.node here
      rw [unfold_eq indexed acyclic node, unfold_eq indexed' acyclic' node',
        h.isEmpty_edges_eq indexed indexed' here node node']
      split
      · exact .cons (.leaf nodes) .nil
      · refine List.rel_flatMap (forall₂_mem (h.edges here)) ?_
        rintro e e' ⟨-, listed', alike⟩
        rw [List.forall₂_map_left_iff, List.forall₂_map_right_iff]
        have tails : List.Forall₂ (List.Forall₂ (Derivation.Alike R N))
            (e.tails.map (unfold indexed acyclic)) (e'.tails.map (unfold indexed' acyclic')) := by
          rw [List.forall₂_map_left_iff, List.forall₂_map_right_iff]
          refine (forall₂_mem alike.tails).imp ?_
          rintro t t' ⟨-, filled', twins⟩
          exact ih e' listed' t' filled' twins
        exact (forall₂_picks tails).imp fun _ _ below => .step nodes alike below

include indexed acyclic indexed' acyclic'

theorem derivationCount_eq (here : R a b) : g.derivationCount a = g'.derivationCount b := by
  obtain ⟨n, n', node, node', -⟩ := h.node here
  rw [Graph.derivationCount_eq indexed acyclic (Array.getElem?_eq_some_iff.1 node).1,
    Graph.derivationCount_eq indexed' acyclic' (Array.getElem?_eq_some_iff.1 node').1, count, count,
    (h.unfold_alike indexed acyclic indexed' acyclic' here).length_eq]

/-- The two enumerations run in lockstep. -/
theorem enumerate_lockstep (check : Bool) (limit fuel fuel' : Nat) (here : R a b)
    (enough : g.depth a < fuel) (enough' : g'.depth b < fuel') :
    Lockstep (AlikeMemo R N) (List.Forall₂ (Derivation.Alike R N))
      (Derivation.enumerate g check limit fuel a)
      (Derivation.enumerate g' check limit fuel' b) := by
  induction fuel generalizing fuel' a b with
  | zero => exact absurd enough (Nat.not_lt_zero _)
  | succ fuel ih =>
      obtain ⟨fuel', rfl⟩ := Nat.exists_eq_succ_of_ne_zero (Nat.ne_zero_of_lt enough')
      obtain ⟨n, n', node, node', nodes⟩ := h.node here
      rw [Derivation.enumerate, Derivation.enumerate]
      refine .get_bind fun memo memo' memos => ?_
      -- Both nodes are in the memo, or neither is.
      have entries := memos a b here
      generalize memo[a]? = entry, memo'[b]? = entry' at entries ⊢
      cases entries with
      | some found => exact .pure found
      | none =>
          have found : g.node a = .ok n := by rw [Graph.node, node]
          have found' : g'.node b = .ok n' := by rw [Graph.node, node']
          refine .bind (V := fun m m' => m = n ∧ m' = n') (.lift ?_) ?_
          · rw [found, found']
            exact .value ⟨rfl, rfl⟩
          rintro m m' ⟨rfl, rfl⟩
          rw [h.isEmpty_edges_eq indexed indexed' here node node']
          split
          · exact .pure (.cons (.leaf nodes) .nil)
          · refine .bind (.modify fun _ _ memos => h.insert memos here .nil) fun _ _ _ => ?_
            refine .bind ?_ fun found found' alike => .bind (.modify fun _ _ memos =>
              h.insert memos here alike) fun _ _ _ => .pure alike
            refine .foldlM (forall₂_mem (h.edges here)) ?_ .nil
            rintro found found' e e' alike ⟨listed, listed', edges⟩
            rw [alike.length_eq]
            split
            · exact .pure alike
            · refine .bind (.mapM (forall₂_mem edges.tails) ?_) fun below below' tails =>
                .bind (.lift (Derivation.byEdge_alike check _ nodes edges tails))
                  fun more more' new => .pure (List.rel_append alike new)
              rintro t t' ⟨filled, filled', twins⟩
              exact ih fuel' twins
                (Nat.lt_of_lt_of_le (depth_lt indexed acyclic listed filled)
                  (Nat.le_of_lt_succ enough))
                (Nat.lt_of_lt_of_le (depth_lt indexed' acyclic' listed' filled')
                  (Nat.le_of_lt_succ enough'))

/-- The derivations of corresponding nodes, up to a limit, are alike in pairs and in the same
order, or both enumerations stop for the same reason. -/
theorem derivations_alike (check : Bool) (limit : Nat) (here : R a b) :
    AlikeOutcome (List.Forall₂ (Derivation.Alike R N)) (g.derivations check a limit)
      (g'.derivations check b limit) := by
  have enough : g.depth a < g.nodes.size + 1 := Nat.lt_succ_of_le (g.depth_le a)
  have enough' : g'.depth b < g'.nodes.size + 1 := Nat.lt_succ_of_le (g'.depth_le b)
  have empty : AlikeMemo R N ∅ ∅ := fun x y _ => by simp
  unfold Graph.derivations
  exact (h.enumerate_lockstep indexed acyclic indexed' acyclic' check limit _ _ here enough enough'
    ∅ ∅ empty).bind fun _ _ both => .value both.1

end Graph.Mirrored

end PackedForest
