import PackedForest.Proofs.Graph.Checked

/-!
# The count is the number of derivations

Counting and enumeration go through a graph in the same order, but they keep different books. The
count enters nodes without edges, the enumeration does not; a node that is not done yet has the
entry zero in one and no derivations in the other. So the books agree at every moment
(`Graph.Balanced`), also where a cycle is cut, and with a limit that leaves nothing out the count
is the number of derivations, as far as numbers go (`Graph.exists_limit`).

The limit has to be large enough for all lists on the way. `Tallies` is the contract of a count and
of an enumeration with limits: from some limit on the enumeration does not depend on it.
-/

namespace PackedForest

section Tallies

variable {σ τ α β γ δ : Type}

/-- From related states the count comes to a value and a state, and with every limit from some one
on the enumeration comes to a value and a state that are related to these. -/
def Tallies (S : σ → τ → Prop) (x : StateM σ α) (y : Nat → StateT τ (Except Fault) β)
    (V : α → β → Prop) (R : σ → τ → Prop) : Prop :=
  ∀ s t, S s t → ∃ b t' enough, (∀ limit, enough ≤ limit → (y limit).run t = .ok (b, t')) ∧
    V (x.run s).1 b ∧ R (x.run s).2 t'

/-- The number of derivations, as far as numbers go. -/
abbrev Counts (n : Nat) (ds : List δ) : Prop := n = min ds.length countLimit

namespace Tallies

variable {S R T : σ → τ → Prop} {V : α → β → Prop} {W : γ → δ → Prop}

theorem pure {a : α} {b : β} (values : V a b) (states : ∀ s t, S s t → R s t) :
    Tallies S (Pure.pure a) (fun _ => Pure.pure b) V R :=
  fun s t related => ⟨b, t, 0, fun _ _ => rfl, values, states s t related⟩

theorem bind {x : StateM σ α} {y : Nat → StateT τ (Except Fault) β} {f : α → StateM σ γ}
    {g : Nat → β → StateT τ (Except Fault) δ} (first : Tallies S x y V R)
    (rest : ∀ a b, V a b → Tallies R (f a) (fun limit => g limit b) W T) :
    Tallies S (x >>= f) (fun limit => y limit >>= g limit) W T := by
  intro s t related
  obtain ⟨b, t', enough, runs, values, between⟩ := first s t related
  obtain ⟨d, t'', enough', runs', values', after⟩ := rest _ b values _ t' between
  refine ⟨d, t'', max enough enough', fun limit large => ?_, values', after⟩
  rw [StateT.run_bind, runs limit (Nat.le_trans (Nat.le_max_left ..) large)]
  exact runs' limit (Nat.le_trans (Nat.le_max_right ..) large)

/-- The states that are looked at are kept in mind. -/
theorem get_bind {f : σ → StateM σ α} {g : Nat → τ → StateT τ (Except Fault) β}
    (rest : ∀ s t, S s t →
      Tallies (fun s' t' => s' = s ∧ t' = t) (f s) (fun limit => g limit t) V R) :
    Tallies S (get >>= f) (fun limit => get >>= g limit) V R :=
  fun s t related => rest s t related s t ⟨rfl, rfl⟩

theorem modify {f : σ → σ} {g : τ → τ} (changed : ∀ s t, S s t → R (f s) (g t)) :
    Tallies S (modify f) (fun _ => modify g) (fun _ _ => True) R :=
  fun s t related => ⟨⟨⟩, g t, 0, fun _ _ => rfl, trivial, changed s t related⟩

/-- Only the count writes something down. -/
theorem modify_left {f : σ → σ} {x : StateM σ α} {y : Nat → StateT τ (Except Fault) β}
    (changed : ∀ s t, S s t → R (f s) t) (rest : Tallies R x y V T) :
    Tallies S (MonadStateOf.modifyGet (fun s => (PUnit.unit, f s)) >>= fun _ => x) y V T :=
  fun s t related => rest (f s) t (changed s t related)

/-- Only the enumeration goes on. -/
theorem map_right {x : StateM σ α} {y : Nat → StateT τ (Except Fault) β} {h : β → δ}
    {W : α → δ → Prop} (first : Tallies S x y V R) (values : ∀ a b, V a b → W a (h b)) :
    Tallies S x (fun limit => do return h (← y limit)) W R := by
  intro s t related
  obtain ⟨b, t', enough, runs, value, after⟩ := first s t related
  refine ⟨h b, t', enough, fun limit large => ?_, values _ b value, after⟩
  rw [StateT.run_bind, runs limit large]
  rfl

/-- For large limits the enumeration may be written in another way. -/
theorem eventually {x : StateM σ α} {y z : Nat → StateT τ (Except Fault) β} (enough : Nat)
    (same : ∀ limit, enough ≤ limit → y limit = z limit) (h : Tallies S x z V R) :
    Tallies S x y V R := by
  intro s t related
  obtain ⟨b, t', enough', runs, values, after⟩ := h s t related
  refine ⟨b, t', max enough enough', fun limit large => ?_, values, after⟩
  rw [same limit (Nat.le_trans (Nat.le_max_left ..) large)]
  exact runs limit (Nat.le_trans (Nat.le_max_right ..) large)

theorem foldlM {as : List δ} {f : α → δ → StateM σ α}
    {g : Nat → β → δ → StateT τ (Except Fault) β}
    (step : ∀ a b, V a b → ∀ c ∈ as, Tallies S (f a c) (fun limit => g limit b c) V S) {a : α}
    {b : β} (start : V a b) :
    Tallies S (as.foldlM f a) (fun limit => as.foldlM (g limit) b) V S := by
  induction as generalizing a b with
  | nil => exact .pure start fun _ _ related => related
  | cons c as ih =>
      simp only [List.foldlM_cons]
      exact .bind (step a b start c List.mem_cons_self) fun a b next =>
        ih (fun a b value c later => step a b value c (List.mem_cons_of_mem _ later)) next

/-- The product of counts is the number of ways to pick from the lists. -/
theorem product {ts : List NodeId} {count : NodeId → StateM σ Nat}
    {list : Nat → NodeId → StateT τ (Except Fault) (List δ)}
    (each : ∀ t ∈ ts, Tallies S (count t) (fun limit => list limit t) Counts S) {p : Nat} (a : Nat)
    (start : p = min a countLimit) :
    Tallies S (ts.foldlM (fun product t => do return saturatingMul product (← count t)) p)
      (fun limit => ts.mapM (list limit))
      (fun n below => below.length = ts.length ∧
        n = min (a * (below.map List.length).prod) countLimit) S := by
  induction ts generalizing a p with
  | nil => exact .pure ⟨rfl, by simpa using start⟩ fun _ _ related => related
  | cons t ts ih =>
      obtain ⟨here, later⟩ := List.forall_mem_cons.1 each
      simp only [List.foldlM_cons, List.mapM_cons, bind_assoc, pure_bind]
      refine .bind here fun n ds counted => ?_
      have next : saturatingMul p n = min (a * ds.length) countLimit := by
        rw [start, counted, saturatingMul_min]
      refine .map_right (ih later (a * ds.length) next) ?_
      rintro product below ⟨length, rfl⟩
      refine ⟨congrArg (· + 1) length, ?_⟩
      rw [List.map_cons, List.prod_cons, Nat.mul_assoc]

end Tallies

end Tallies

/-! ### The books agree -/

namespace Graph

/-- What the two books say of a node. One without edges is entered by the count only. -/
def Balanced (g : Graph) (counts : CountMemo) (found : Derivation.Memo) : Prop :=
  ∀ id : NodeId, match found[id]? with
    | some ds => counts[id]? = some (min ds.length countLimit)
    | none => counts[id]? = none ∨ (g.edgesOf id).isEmpty = true ∧ counts[id]? = some 1

namespace Balanced

variable {g : Graph} {counts : CountMemo} {found : Derivation.Memo} (h : g.Balanced counts found)

theorem empty (g : Graph) : g.Balanced ∅ ∅ := fun id => by simp

include h

theorem insert (id : NodeId) (ds : List Derivation) :
    g.Balanced (counts.insert id (min ds.length countLimit)) (found.insert id ds) := by
  intro other
  rw [Std.TreeMap.getElem?_insert, Std.TreeMap.getElem?_insert]
  by_cases same : compare id other = .eq
  · rw [if_pos same, if_pos same]
  · rw [if_neg same, if_neg same]
    exact h other

/-- A node without edges has one derivation. -/
theorem insert_bare {id : NodeId} (bare : (g.edgesOf id).isEmpty = true)
    (new : found[id]? = none) : g.Balanced (counts.insert id 1) found := by
  intro other
  rw [Std.TreeMap.getElem?_insert]
  by_cases same : compare id other = .eq
  · obtain rfl := Std.compare_eq_iff_eq.1 same
    rw [if_pos same, new]
    exact .inr ⟨bare, rfl⟩
  · rw [if_neg same]
    exact h other

end Balanced

open PackedForest.Derivation

/-- Where there is room for all picks, all are made. -/
theorem madeBy_of_enough {e : Edge} {below : List (List Derivation)}
    (tails : below.length = e.tails.length) {room : Nat}
    (enough : (below.map List.length).prod < room) (node : Node) :
    madeBy room node e below = (picks below).map (.step node e) := by
  rw [madeBy_eq tails (Nat.zero_lt_of_lt enough),
    List.take_of_length_le (length_picks below ▸ Nat.le_of_lt enough)]

/-- The derivations by one edge are as many as the counts of its tails say, on top of those that
have been found. -/
theorem edge_tallies (check : Bool) (node : Node) {e : Edge}
    (probable : isProbability e.probability = true) {σ τ : Type} {S : σ → τ → Prop}
    {count : NodeId → StateM σ Nat}
    {list : Nat → NodeId → StateT τ (Except Fault) (List Derivation)}
    (each : ∀ t ∈ e.tails, Tallies S (count t) (fun limit => list limit t) Counts S)
    {total : Nat} {ds : List Derivation} (counted : Counts total ds) :
    Tallies S
      (do
        let product ← e.tails.foldlM (fun product t => do
          return saturatingMul product (← count t)) 1
        return saturatingAdd total product)
      (fun limit => do
        if limit ≤ ds.length then return ds
        let below ← e.tails.mapM (list limit)
        return ds ++ (← Derivation.byEdge check (limit - ds.length) node e below))
      Counts S := by
  have one : 1 = min 1 countLimit := (Nat.min_eq_left (show 1 ≤ countLimit by decide)).symm
  refine .eventually (ds.length + 1) (fun limit large => if_neg (by omega)) ?_
  refine .bind (.product each 1 one) ?_
  rintro product below ⟨tails, rfl⟩
  refine .eventually (ds.length + (below.map List.length).prod + 1)
    (z := fun _ => pure (ds ++ (picks below).map (.step node e))) (fun limit large => ?_)
    (.pure ?_ fun _ _ same => same)
  · rw [lift_bind (byEdge_eq_ok probable ..), madeBy_of_enough tails (by omega)]
  · rw [Counts, counted, saturatingAdd_min, List.length_append, List.length_map, length_picks,
      Nat.one_mul]

variable {g : Graph} (coherent : g.Coherent) (probable : g.Probable)

include coherent probable

/-- One count and one list for each node on the way. -/
theorem enumerate_tallies (check : Bool) (fuel : Nat) {id : NodeId} (known : id < g.nodes.size) :
    Tallies g.Balanced (g.countFrom fuel id) (fun limit => enumerate g check limit fuel id) Counts
      g.Balanced := by
  induction fuel generalizing id with
  | zero => exact .pure rfl fun _ _ balanced => balanced
  | succ fuel ih =>
      have here := Array.getElem?_eq_getElem known
      have fetched : g.node id = .ok g.nodes[id] := by rw [Graph.node, here]
      simp only [countFrom, enumerate, lift_bind fetched]
      refine .get_bind fun counts found balanced => ?_
      have entries := balanced id
      cases entry : found[id]? with
      | some ds =>
          rw [entry] at entries
          dsimp only at entries ⊢
          rw [entries]
          exact .pure rfl fun _ _ same => same.1 ▸ same.2 ▸ balanced
      | none =>
          rw [entry] at entries
          dsimp only at entries
          have same_edges := isEmpty_edgesOf coherent here
          by_cases bare : (g.edgesOf id).isEmpty = true
          · have one : 1 = min [leaf g.nodes[id]].length countLimit :=
              (Nat.min_eq_left (show 1 ≤ countLimit by decide)).symm
            rcases entries with absent | ⟨-, counted⟩
            · rw [absent]
              simp only [← same_edges, if_pos bare]
              refine .modify_left (f := (·.insert id 1)) (R := g.Balanced) ?_
                (.pure one fun _ _ balanced => balanced)
              rintro _ _ ⟨rfl, rfl⟩
              exact balanced.insert_bare bare entry
            · rw [counted]
              simp only [← same_edges, if_pos bare]
              exact .pure one fun _ _ same => same.1 ▸ same.2 ▸ balanced
          · rw [entries.resolve_right fun counted => bare counted.1]
            simp only [← same_edges, if_neg bare]
            refine .bind (.modify (R := g.Balanced) ?_) fun _ _ _ => ?_
            · rintro _ _ ⟨rfl, rfl⟩
              simpa using balanced.insert id []
            refine .bind (R := g.Balanced) (V := Counts) ?_
              fun total ds counted => .bind (.modify (R := g.Balanced) ?_) fun _ _ _ =>
                .pure counted fun _ _ balanced => balanced
            · refine .foldlM (fun total ds counted e building => ?_) rfl
              exact edge_tallies check _ (probable e (coherent.mem_edgesOf building).1)
                (fun t listed => ih (coherent.tail_known building listed)) counted
            · intro _ _ balanced
              rw [counted]
              exact balanced.insert id ds

/-- From some limit on, the count is the number of derivations, as far as numbers go. -/
theorem exists_limit (check : Bool) {id : NodeId} (known : id < g.nodes.size) :
    ∃ ds enough, g.derivationCount id = .ok (min ds.length countLimit) ∧
      ∀ limit, enough ≤ limit → g.derivations check id limit = .ok ds := by
  obtain ⟨ds, memo, enough, runs, counted, -⟩ :=
    enumerate_tallies coherent probable check (g.nodes.size + 1) known ∅ ∅ (.empty g)
  refine ⟨ds, enough, ?_, fun limit large => ?_⟩
  · rw [derivationCount, Graph.node, Array.getElem?_eq_getElem known, ← counted]
    rfl
  · rw [derivations, runs limit large]
    rfl

end Graph

end PackedForest
