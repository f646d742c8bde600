import PackedForest.Proofs.Graph.Enumeration

/-!
# Walking along a graph with every access checked

Counting and enumeration follow edges that may lead back to where they came from. A node that is
met again is found in the memo, so a walk goes on only to nodes that have no entry yet, and there
are fewer of these at each step down. The checked walks fetch nodes and edges from their places,
and they halt where a place holds nothing, where a probability is out of range, or where there is
no fuel left.

In a coherent graph with probabilities they never halt, and come to what the definitions say
(`Graph.countChecked_agrees`, `Graph.enumerateChecked_agrees`). Each derivation that is found on
the way is one of its node, also where the memo tells of a node that is not done yet: what is
there is a part of the derivations, at worst none.
-/

namespace PackedForest

/-- Why a checked walk halts. -/
inductive Halt
  | fault (fault : Fault)
  | foreignHead (edge : EdgeId)
  | unfinished

namespace Graph

def fetchNode (g : Graph) (id : NodeId) : Except Halt Node := (g.node id).mapError .fault

def fetchEdge (g : Graph) (id : EdgeId) : Except Halt Edge := (g.edge id).mapError .fault

/-- The number of derivations of a node, as the walk along its edges finds it. -/
def countChecked (g : Graph) : (fuel : Nat) → NodeId → StateT CountMemo (Except Halt) Nat
  | 0, _ => throw .unfinished
  | fuel + 1, id => do
    if let some count := (← get)[id]? then return count
    let node ← g.fetchNode id
    if node.edges.isEmpty then
      modify (·.insert id 1)
      return 1
    modify (·.insert id 0)
    let total ← node.edges.foldlM (fun total j => do
      let edge ← g.fetchEdge j
      let product ← edge.tails.foldlM (fun product tail => do
        return saturatingMul product (← countChecked g fuel tail)) 1
      return saturatingAdd total product) 0
    modify (·.insert id total)
    return total

def derivationCountChecked (g : Graph) (id : NodeId) : Except Halt Nat :=
  return (← (g.countChecked (g.nodes.size + 1) id).run ∅).1

/-- The derivations of a node, as the walk along its edges finds them. -/
def enumerateChecked (g : Graph) (check : Bool) (limit : Nat) :
    (fuel : Nat) → NodeId → StateT Derivation.Memo (Except Halt) (List Derivation)
  | 0, _ => throw .unfinished
  | fuel + 1, id => do
    if let some found := (← get)[id]? then return found
    let node ← g.fetchNode id
    if node.edges.isEmpty then return [.leaf node]
    modify (·.insert id [])
    let found ← node.edges.foldlM (fun (found : List Derivation) j => do
      if limit ≤ found.length then return found
      let edge ← g.fetchEdge j
      let below ← edge.tails.mapM (enumerateChecked g check limit fuel)
      let room := limit - found.length
      let more ← (Derivation.byEdge check room node edge below).mapError Halt.fault
      return found ++ more) []
    modify (·.insert id found)
    return found

def derivationsChecked (g : Graph) (check : Bool) (id : NodeId) (limit : Nat) :
    Except Halt (List Derivation) :=
  return (← (g.enumerateChecked check limit (g.nodes.size + 1) id).run ∅).1

end Graph

/-! ### Walks that agree -/

section Agree

variable {m : Type → Type} [Monad m] {σ α β γ δ : Type}

/-- From a state with `P`, both walks come to one value and one state. The value is as `V` says,
and the state as `Q` says. -/
def Agree (P : σ → Prop) (x : StateT σ (Except Halt) α) (y : StateT σ m α) (V : α → Prop)
    (Q : σ → Prop) : Prop :=
  ∀ s, P s → ∃ a t, x.run s = .ok (a, t) ∧ y.run s = pure (a, t) ∧ V a ∧ Q t

namespace Agree

variable {P Q R : σ → Prop} {V : α → Prop} {W : β → Prop}

theorem pure {a : α} (value : V a) (state : ∀ s, P s → Q s) :
    Agree (m := m) P (Pure.pure a) (Pure.pure a) V Q :=
  fun s holds => ⟨a, s, rfl, StateT.run_pure a s, value, state s holds⟩

theorem modify {f : σ → σ} (changed : ∀ s, P s → Q (f s)) :
    Agree (m := m) P (modify f) (modify f) (fun _ => True) Q :=
  fun s holds => ⟨⟨⟩, f s, rfl, rfl, trivial, changed s holds⟩

variable [LawfulMonad m]

theorem bind {x : StateT σ (Except Halt) α} {y : StateT σ m α} {f : α → StateT σ (Except Halt) β}
    {h : α → StateT σ m β} (first : Agree P x y V Q)
    (rest : ∀ a, V a → Agree Q (f a) (h a) W R) : Agree P (x >>= f) (y >>= h) W R := by
  intro s holds
  obtain ⟨a, t, checked, runs, value, between⟩ := first s holds
  obtain ⟨b, u, checked', runs', value', after⟩ := rest a value t between
  refine ⟨b, u, ?_, ?_, value', after⟩
  · rw [StateT.run_bind, checked]
    exact checked'
  · rw [StateT.run_bind, runs, pure_bind]
    exact runs'

/-- The state that is looked at is kept in mind. -/
theorem get_bind {f : σ → StateT σ (Except Halt) α} {h : σ → StateT σ m α}
    (rest : ∀ s, P s → Agree (· = s) (f s) (h s) V Q) :
    Agree P (get >>= f) (get >>= h) V Q := by
  intro s holds
  have runs : (get >>= f : StateT σ (Except Halt) α).run s = (f s).run s := rfl
  have runs' : (get >>= h : StateT σ m α).run s = (h s).run s := by simp
  rw [runs, runs']
  exact rest s holds s rfl

theorem foldlM {E : γ → δ → Prop} {as : List γ} {bs : List δ} (elements : List.Forall₂ E as bs)
    {f : α → γ → StateT σ (Except Halt) α} {h : α → δ → StateT σ m α}
    (step : ∀ a x y, V a → E x y → Agree P (f a x) (h a y) V P) {a : α} (start : V a) :
    Agree P (as.foldlM f a) (bs.foldlM h a) V P := by
  induction elements generalizing a with
  | nil => exact .pure start fun _ holds => holds
  | cons first _ ih =>
      rw [List.foldlM_cons, List.foldlM_cons]
      exact .bind (step _ _ _ start first) fun a value => ih value

theorem mapM {as : List γ} {f : γ → StateT σ (Except Halt) α} {h : γ → StateT σ m α}
    {U : γ → α → Prop} (step : ∀ c ∈ as, Agree P (f c) (h c) (U c) P) :
    Agree P (as.mapM f) (as.mapM h) (List.Forall₂ U as) P := by
  induction as with
  | nil => exact .pure .nil fun _ holds => holds
  | cons c as ih =>
      obtain ⟨here, later⟩ := List.forall_mem_cons.1 step
      rw [List.mapM_cons, List.mapM_cons]
      refine .bind here fun a value => .bind (ih later) fun as values => ?_
      exact .pure (.cons value values) fun _ holds => holds

end Agree

end Agree

/-! ### Nodes without an entry -/

section Within

variable {β : Type}

/-- The number of nodes that have no entry. -/
def Graph.unmet (g : Graph) (memo : Std.TreeMap Nat β) : Nat :=
  (List.range g.nodes.size).countP fun id => memo[id]?.isNone

/-- There is fuel for all nodes that have no entry, and the entries are good ones. -/
structure Graph.Within (g : Graph) (Good : NodeId → β → Prop) (fuel : Nat)
    (memo : Std.TreeMap Nat β) : Prop where
  fuel : g.unmet memo < fuel
  entries : ∀ {id : NodeId} {b : β}, memo[id]? = some b → Good id b

namespace Graph

variable {g : Graph} {Good : NodeId → β → Prop} {memo : Std.TreeMap Nat β} {id : NodeId}

theorem unmet_empty (g : Graph) : g.unmet (∅ : Std.TreeMap Nat β) = g.nodes.size := by
  simp [unmet]

theorem unmet_insert_le (g : Graph) (memo : Std.TreeMap Nat β) (id : NodeId) (b : β) :
    g.unmet (memo.insert id b) ≤ g.unmet memo := by
  refine List.countP_mono_left fun other _ none => ?_
  rw [Std.TreeMap.getElem?_insert] at none
  split at none
  · cases none
  · exact none

/-- A node that gets its first entry is no longer among them. -/
theorem unmet_insert_lt (known : id < g.nodes.size) (new : memo[id]? = none) (b : β) :
    g.unmet (memo.insert id b) < g.unmet memo := by
  refine countP_lt_of_imp (fun other none => ?_) (List.mem_range.2 known) ?_ ?_
  · rw [Std.TreeMap.getElem?_insert] at none
    split at none
    · cases none
    · exact none
  · rw [new]
    rfl
  · rw [Std.TreeMap.getElem?_insert_self]
    rfl

namespace Within

theorem empty (g : Graph) (Good : NodeId → β → Prop) : g.Within Good (g.nodes.size + 1) ∅ where
  fuel := g.unmet_empty ▸ Nat.lt_succ_self _
  entries entry := by simp at entry

variable {fuel : Nat}

theorem entries_insert (h : g.Within Good fuel memo) {b : β} (good : Good id b) {other : NodeId}
    {b' : β} (entry : (memo.insert id b)[other]? = some b') : Good other b' := by
  rw [Std.TreeMap.getElem?_insert] at entry
  split at entry
  · next same =>
      rw [← Std.compare_eq_iff_eq.1 same, ← Option.some.inj entry]
      exact good
  · exact h.entries entry

/-- A node that is entered leaves fewer nodes to enter. -/
theorem enter (h : g.Within Good (fuel + 1) memo) (known : id < g.nodes.size)
    (new : memo[id]? = none) {b : β} (good : Good id b) :
    g.Within Good fuel (memo.insert id b) where
  fuel := Nat.lt_of_lt_of_le (unmet_insert_lt known new b) (Nat.le_of_lt_succ h.fuel)
  entries := h.entries_insert good

theorem insert (h : g.Within Good fuel memo) {b : β} (good : Good id b) :
    g.Within Good fuel (memo.insert id b) where
  fuel := Nat.lt_of_le_of_lt (g.unmet_insert_le memo id b) h.fuel
  entries := h.entries_insert good

theorem succ (h : g.Within Good fuel memo) : g.Within Good (fuel + 1) memo :=
  ⟨Nat.lt_succ_of_lt h.fuel, h.entries⟩

end Within

end Graph

end Within

/-! ### The walks do not halt -/

namespace Graph

/-- The derivations are those of a node. -/
def AllOf (g : Graph) (id : NodeId) (ds : List Derivation) : Prop := ∀ d ∈ ds, d.Of g id

variable {g : Graph}

theorem fetchNode_eq_ok {id : NodeId} {node : Node} (here : g.nodes[id]? = some node) :
    g.fetchNode id = .ok node := by
  rw [fetchNode, Graph.node, here]
  rfl

theorem fetchEdge_eq_ok {j : EdgeId} {e : Edge} (edge : g.edges[j]? = some e) :
    g.fetchEdge j = .ok e := by
  rw [fetchEdge, Graph.edge, edge]
  rfl

/-- What has been fetched is at hand. -/
theorem lift_bind {ε σ α β : Type} {x : Except ε α} {a : α} (fetched : x = .ok a)
    (f : α → StateT σ (Except ε) β) : (liftM x : StateT σ (Except ε) α) >>= f = f a := by
  rw [fetched]
  rfl

variable (coherent : g.Coherent)

include coherent

theorem isEmpty_edgesOf {id : NodeId} {node : Node} (here : g.nodes[id]? = some node) :
    (g.edgesOf id).isEmpty = node.edges.isEmpty := by
  rw [Bool.eq_iff_iff, List.isEmpty_iff, List.isEmpty_iff, coherent.edgesOf_eq_nil_iff here]

/-- The walk that counts has every node and edge that it fetches, and it has fuel for all nodes. -/
theorem countChecked_agrees (fuel : Nat) {id : NodeId} (known : id < g.nodes.size) :
    Agree (m := Id) (g.Within (fun _ _ => True) fuel) (g.countChecked fuel id)
      (g.countFrom fuel id) (fun _ => True) (g.Within (fun _ _ => True) fuel) := by
  induction fuel generalizing id with
  | zero => exact fun _ within => absurd within.fuel (Nat.not_lt_zero _)
  | succ fuel ih =>
      have here := Array.getElem?_eq_getElem known
      rw [countChecked, countFrom]
      refine .get_bind fun memo within => ?_
      cases entry : memo[id]? with
      | some found => exact .pure trivial fun _ same => same ▸ within
      | none =>
          dsimp only
          rw [lift_bind (fetchNode_eq_ok here), isEmpty_edgesOf coherent here]
          split
          · refine .bind (.modify fun _ same => ?_) fun _ _ => .pure trivial fun _ after => after
            exact same ▸ within.insert trivial
          · refine .bind (.modify (Q := g.Within (fun _ _ => True) fuel) fun _ same => ?_)
              fun _ _ => ?_
            · exact same ▸ within.enter known entry trivial
            refine .bind (V := fun _ => True) (Q := g.Within (fun _ _ => True) fuel) ?_
              fun total _ => .bind (.modify fun _ inside => (inside.insert trivial).succ)
                fun _ _ => .pure trivial fun _ after => after
            refine .foldlM (forall₂_mem (coherent.forall₂_edgesOf here)) ?_ trivial
            rintro total j e - ⟨-, building, edge⟩
            rw [lift_bind (fetchEdge_eq_ok edge)]
            refine .bind (V := fun _ => True) ?_ fun product _ => .pure trivial fun _ after => after
            refine .foldlM (E := fun t t' => t = t' ∧ t < g.nodes.size) ?_ ?_ trivial
            · exact List.forall₂_same.2 fun t listed => ⟨rfl, coherent.tail_known building listed⟩
            rintro product t _ - ⟨rfl, inside⟩
            exact .bind (ih inside) fun _ _ => .pure trivial fun _ after => after

theorem derivationCountChecked_eq {id : NodeId} (known : id < g.nodes.size) :
    ∃ n, g.derivationCount id = .ok n ∧ g.derivationCountChecked id = .ok n := by
  obtain ⟨n, memo, checked, runs, -⟩ :=
    countChecked_agrees coherent (g.nodes.size + 1) known ∅ (.empty g _)
  refine ⟨n, ?_, ?_⟩
  · rw [derivationCount, Graph.node, Array.getElem?_eq_getElem known, runs]
    rfl
  · rw [derivationCountChecked, checked]
    rfl

end Graph

namespace Derivation

open PackedForest.Graph

variable {g : Graph}

theorem byEdge_eq_ok {e : Edge} (probable : isProbability e.probability = true) (check : Bool)
    (room : Nat) (node : Node) (below : List (List Derivation)) :
    byEdge check room node e below = .ok (madeBy room node e below) :=
  (byEdge_cases check room node e below).resolve_right fun improbable => by
    rw [probable] at improbable
    cases improbable.2.1

/-- Where there is room for a derivation, there is one for each pick, as far as the room goes. -/
theorem madeBy_eq {e : Edge} {below : List (List Derivation)}
    (tails : below.length = e.tails.length) {room : Nat} (roomy : 0 < room) (node : Node) :
    madeBy room node e below = ((picks below).take room).map (step node e) := by
  rw [madeBy]
  split
  · next bare =>
      rw [List.isEmpty_iff.1 bare, List.length_nil, List.length_eq_zero_iff] at tails
      rw [tails, picks, List.take_of_length_le roomy]
  · next some_tail =>
      have nonempty : below ≠ [] := fun none => some_tail <| List.isEmpty_iff.2 <|
        List.length_eq_zero_iff.1 (tails.symm.trans (congrArg List.length none))
      rw [selections_of_ne_nil nonempty]

/-- Out of derivations of the tails come derivations of the head. -/
theorem allOf_madeBy {id : NodeId} {node : Node} (here : g.nodes[id]? = some node) {e : Edge}
    (building : e ∈ g.edgesOf id) {room : Nat} (roomy : 0 < room) {below : List (List Derivation)}
    (tails : List.Forall₂ g.AllOf e.tails below) : g.AllOf id (madeBy room node e below) := by
  rw [madeBy_eq tails.length_eq.symm roomy]
  intro d made
  obtain ⟨pick, picked, rfl⟩ := List.mem_map.1 made
  have choices := mem_picks.1 (List.mem_of_mem_take picked)
  exact .step here building (forall₂_comp tails choices fun _ _ d all listed => all d listed)

end Derivation

namespace Graph

open PackedForest.Derivation

variable {g : Graph} (coherent : g.Coherent) (probable : g.Probable)

include coherent probable

/-- So has the walk that lists derivations. All that it finds are derivations of their nodes. -/
theorem enumerateChecked_agrees (check : Bool) (limit fuel : Nat) {id : NodeId}
    (known : id < g.nodes.size) :
    Agree (g.Within g.AllOf fuel) (g.enumerateChecked check limit fuel id)
      (enumerate g check limit fuel id) (g.AllOf id) (g.Within g.AllOf fuel) := by
  induction fuel generalizing id with
  | zero => exact fun _ within => absurd within.fuel (Nat.not_lt_zero _)
  | succ fuel ih =>
      have here := Array.getElem?_eq_getElem known
      rw [enumerateChecked, enumerate]
      refine .get_bind fun memo within => ?_
      cases entry : memo[id]? with
      | some found => exact .pure (within.entries entry) fun _ same => same ▸ within
      | none =>
          have found : g.node id = .ok g.nodes[id] := by rw [Graph.node, here]
          dsimp only
          rw [lift_bind (fetchNode_eq_ok here), lift_bind found]
          split
          · next bare =>
              refine .pure ?_ fun _ same => same ▸ within
              rintro d listed
              rw [List.mem_singleton.1 listed]
              exact .leaf here (List.isEmpty_iff.1 bare)
          · refine .bind (.modify (Q := g.Within g.AllOf fuel) fun _ same => ?_) fun _ _ => ?_
            · exact same ▸ within.enter known entry fun _ none => absurd none List.not_mem_nil
            refine .bind (V := g.AllOf id) (Q := g.Within g.AllOf fuel) ?_ fun found all =>
              .bind (.modify fun _ inside => (inside.insert all).succ)
                fun _ _ => .pure all fun _ after => after
            refine .foldlM (forall₂_mem (coherent.forall₂_edgesOf here)) ?_
              fun _ none => absurd none List.not_mem_nil
            rintro found j e all ⟨-, building, edge⟩
            split
            · exact .pure all fun _ after => after
            · next short =>
                have roomy : 0 < limit - found.length := Nat.sub_pos_of_lt (Nat.lt_of_not_le short)
                rw [lift_bind (fetchEdge_eq_ok edge)]
                refine .bind (.mapM fun t listed => ih (coherent.tail_known building listed))
                  fun below tails => ?_
                have made := byEdge_eq_ok (probable e (coherent.mem_edgesOf building).1) check
                  (limit - found.length) g.nodes[id] below
                rw [lift_bind made, lift_bind (congrArg (Except.mapError Halt.fault) made)]
                refine .pure ?_ fun _ after => after
                exact List.forall_mem_append.2 ⟨all, allOf_madeBy here building roomy tails⟩

theorem derivationsChecked_eq (check : Bool) {id : NodeId} (known : id < g.nodes.size)
    (limit : Nat) : ∃ ds, g.derivations check id limit = .ok ds ∧
      g.derivationsChecked check id limit = .ok ds ∧ g.AllOf id ds := by
  obtain ⟨ds, memo, checked, runs, all, -⟩ :=
    enumerateChecked_agrees coherent probable check limit (g.nodes.size + 1) known ∅ (.empty g _)
  refine ⟨ds, ?_, ?_, all⟩
  · rw [derivations, runs]
    rfl
  · rw [derivationsChecked, checked]
    rfl

end Graph

end PackedForest
