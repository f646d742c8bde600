import PackedForest.Proofs.Graph.Built
import PackedForest.Proofs.Graph.Counting
import PackedForest.Proofs.Graph.Simple

/-!
# What cycles do to a count

The count goes down from a node and finishes nodes one after another. A tail that is not finished
when it is met is on the path above, or it is the node itself, and it counts as nothing. What a node
was counted as is kept, though, and is used again where the nodes that were above it then are not.
So the count is that of the derivations which go down in the order in which nodes were finished
(`Graph.Built.derivationCount_falling`). A tail comes before its head in this order unless it leads
back to the head.

These derivations come to no node twice on the way down. They need not be all of this kind: which
ones are found depends on the tails that were met first (`Graph.derivationCount_crossed`). They are
all if no two nodes lead to each other.

`Graph.Tells` is the contract of a count. The order grows while the count runs, so a value is told
as a function of every order that may follow.
-/

namespace PackedForest

open Reachability (Leads)

namespace Graph

variable {g : Graph} {path order : List NodeId} {id : NodeId}

/-- What has been counted for a node, once it is finished. -/
def settled (g : Graph) (order : List NodeId) (id : NodeId) : List Derivation :=
  if id ∈ order then g.falling (order.idxOf ·) id else []

/-- The entry of a finished node, and that of a node on the path. -/
def tally (g : Graph) (order : List NodeId) (id : NodeId) : Nat :=
  min (g.settled order id).length countLimit

/-- In a longer order the first nodes stand where they stood. -/
theorem falling_append (later : List NodeId) (member : id ∈ order) :
    g.falling ((order ++ later).idxOf ·) id = g.falling (order.idxOf ·) id := by
  have low : order.idxOf id < order.length := List.idxOf_lt_length_iff.2 member
  refine falling_congr (fun t early => ?_) (fun t early => ?_) low
  · exact List.idxOf_append_of_mem (List.idxOf_lt_length_iff.1 early)
  · refine (List.idxOf_append_of_mem ?_).symm
    by_contra other
    rw [List.idxOf_append_of_notMem other] at early
    omega

theorem settled_append (later : List NodeId) (member : id ∈ order) :
    g.settled (order ++ later) id = g.settled order id := by
  rw [settled, settled, if_pos member, if_pos (List.mem_append_left _ member),
    falling_append later member]

theorem settled_of_notMem (other : id ∉ order) : g.settled order id = [] := if_neg other

/-- A node that is finished now has the derivations out of those of nodes finished before. -/
theorem settled_concat (new : id ∉ order) (later : List NodeId) :
    g.settled (order ++ [id] ++ later) id = g.upon (g.settled order) id := by
  have last : (order ++ [id] ++ later).idxOf id = order.length := by
    rw [List.append_assoc, List.idxOf_append_of_notMem new, List.singleton_append,
      List.idxOf_cons_self, Nat.add_zero]
  rw [settled, if_pos (by simp), falling_eq, last]
  refine upon_congr fun e _ t _ => ?_
  rw [List.append_assoc]
  by_cases member : t ∈ order
  · rw [List.idxOf_append_of_mem member, if_pos (List.idxOf_lt_length_iff.2 member),
      falling_append _ member, settled, if_pos member]
  · rw [List.idxOf_append_of_notMem member, if_neg (by omega), settled_of_notMem member]

/-- The nodes of an order come once, and none is on the path. -/
structure Fits (path order : List NodeId) : Prop where
  nodup : order.Nodup
  apart : ∀ id ∈ path, id ∉ order

theorem tally_of_met (met : id ∈ path ∨ id ∈ order) (fits : Fits path order) {later : List NodeId}
    (after : order <+: later) (fits' : Fits path later) : g.tally later id = g.tally order id := by
  obtain ⟨more, rfl⟩ := after
  rcases met with above | before
  · rw [tally, tally, settled_of_notMem (fits.apart id above),
      settled_of_notMem (fits'.apart id above)]
  · rw [tally, tally, settled_append more before]

/-- The memo while nodes of a path are in progress. Those that were finished stand in an order. A
tail that comes no earlier than its head leads back to it. -/
structure Finished (g : Graph) (path order : List NodeId) (memo : CountMemo) : Prop where
  fits : Fits path order
  waiting : ∀ id ∈ path, memo[id]? = some 0
  done : ∀ id ∈ order, memo[id]? = some (g.tally order id)
  entered : ∀ {id : NodeId} {n : Nat}, memo[id]? = some n → id ∈ path ∨ id ∈ order
  closing : ∀ e ∈ g.edges.toList, e.head ∈ order → ∀ t ∈ e.tails, (t ∈ path ∨ t ∈ order) ∧
    (order.idxOf t < order.idxOf e.head ∨ Leads g.links t e.head)

namespace Finished

variable {memo memo' : CountMemo} (h : g.Finished path order memo)

theorem start (g : Graph) : g.Finished [] [] ∅ where
  fits := ⟨List.nodup_nil, fun _ none => absurd none List.not_mem_nil⟩
  waiting _ none := absurd none List.not_mem_nil
  done _ none := absurd none List.not_mem_nil
  entered entry := by simp at entry
  closing _ _ none := absurd none List.not_mem_nil

include h

theorem congr (same : ∀ id : NodeId, memo'[id]? = memo[id]?) : g.Finished path order memo' where
  fits := h.fits
  waiting id member := (same id).trans (h.waiting id member)
  done id member := (same id).trans (h.done id member)
  entered entry := h.entered ((same _).symm.trans entry)
  closing := h.closing

/-- An entry tells what has been counted. -/
theorem entry_eq {n : Nat} (entry : memo[id]? = some n) : n = g.tally order id := by
  rcases h.entered entry with above | before
  · rw [tally, settled_of_notMem (h.fits.apart id above)]
    exact Option.some.inj (entry.symm.trans (h.waiting id above))
  · exact Option.some.inj (entry.symm.trans (h.done id before))

theorem new (absent : memo[id]? = none) : id ∉ path ∧ id ∉ order := by
  refine ⟨fun above => ?_, fun before => ?_⟩
  · rw [h.waiting id above] at absent
    cases absent
  · rw [h.done id before] at absent
    cases absent

theorem enter (absent : memo[id]? = none) : g.Finished (id :: path) order (memo.insert id 0) where
  fits := ⟨h.fits.nodup, List.forall_mem_cons.2 ⟨(h.new absent).2, h.fits.apart⟩⟩
  waiting other member := by
    rw [Std.TreeMap.getElem?_insert]
    split
    · rfl
    · next differ =>
        refine h.waiting other ((List.mem_cons.1 member).resolve_left fun same => differ ?_)
        exact Std.compare_eq_iff_eq.2 same.symm
  done other member := by
    rw [Std.TreeMap.getElem?_insert, if_neg, h.done other member]
    intro same
    exact (h.new absent).2 (Std.compare_eq_iff_eq.1 same ▸ member)
  entered {other n} entry := by
    rw [Std.TreeMap.getElem?_insert] at entry
    split at entry
    · next same => exact .inl (List.mem_cons.2 (.inl (Std.compare_eq_iff_eq.1 same).symm))
    · exact (h.entered entry).imp_left (List.mem_cons_of_mem _)
  closing e stored before t tail := by
    obtain ⟨met, earlier⟩ := h.closing e stored before t tail
    exact ⟨met.imp_left (List.mem_cons_of_mem _), earlier⟩

end Finished

/-- A node is finished once all tails of its edges are met. Those on the path lead to it. -/
theorem Finished.leave {memo : CountMemo} (h : g.Finished (id :: path) order memo)
    (indexed : g.Indexed) (known : id < g.nodes.size) (new : id ∉ path)
    (leads : ∀ p ∈ path, Leads g.links p id)
    (met : ∀ e ∈ g.edgesOf id, ∀ t ∈ e.tails, t ∈ id :: path ∨ t ∈ order) :
    g.Finished path (order ++ [id]) (memo.insert id (min (g.upon (g.settled order) id).length
      countLimit)) := by
  have fresh : id ∉ order := h.fits.apart id List.mem_cons_self
  have above : ∀ t, t ∈ id :: path ∨ t ∈ order → t ∈ path ∨ t ∈ order ++ [id] := by
    intro t either
    rcases either with on_path | before
    · rcases List.mem_cons.1 on_path with rfl | higher
      · exact .inr (List.mem_append_right _ (List.mem_singleton_self _))
      · exact .inl higher
    · exact .inr (List.mem_append_left _ before)
  have place : (order ++ [id]).idxOf id = order.length := by
    rw [List.idxOf_append_of_notMem fresh, List.idxOf_cons_self, Nat.add_zero]
  refine ⟨⟨?_, fun p higher => ?_⟩, fun p higher => ?_, fun p member => ?_, fun {p n} entry => ?_,
    fun e stored before t tail => ?_⟩
  · exact List.nodup_append.2 ⟨h.fits.nodup, List.nodup_singleton _, fun a before b last same =>
      fresh (List.mem_singleton.1 last ▸ same ▸ before)⟩
  · rw [List.mem_append, List.mem_singleton, not_or]
    exact ⟨h.fits.apart p (List.mem_cons_of_mem _ higher), fun same => new (same ▸ higher)⟩
  · rw [Std.TreeMap.getElem?_insert, if_neg, h.waiting p (List.mem_cons_of_mem _ higher)]
    exact fun same => new (Std.compare_eq_iff_eq.1 same ▸ higher)
  · rw [Std.TreeMap.getElem?_insert]
    split
    · next same =>
        have value := settled_concat (g := g) fresh []
        rw [List.append_nil] at value
        rw [← Std.compare_eq_iff_eq.1 same, tally, value]
    · next differ =>
        have before : p ∈ order := (List.mem_append.1 member).resolve_right fun last =>
          differ (Std.compare_eq_iff_eq.2 (List.mem_singleton.1 last).symm)
        rw [h.done p before, tally, tally, settled_append _ before]
  · rw [Std.TreeMap.getElem?_insert] at entry
    split at entry
    · next same =>
        rw [← Std.compare_eq_iff_eq.1 same]
        exact .inr (List.mem_append_right _ (List.mem_singleton_self _))
    · exact above p (h.entered entry)
  · rcases List.mem_append.1 before with old | last
    · obtain ⟨either, earlier⟩ := h.closing e stored old t tail
      refine ⟨above t either, earlier.imp_left fun lower => ?_⟩
      have tail_old : t ∈ order :=
        List.idxOf_lt_length_iff.1 (Nat.lt_trans lower (List.idxOf_lt_length_iff.2 old))
      rwa [List.idxOf_append_of_mem tail_old, List.idxOf_append_of_mem old]
    · have head : e.head = id := List.mem_singleton.1 last
      have building : e ∈ g.edgesOf id := by
        rw [indexed.edgesOf_eq_filter known]
        exact List.mem_filter.2 ⟨stored, decide_eq_true head⟩
      refine ⟨above t (met e building t tail), ?_⟩
      rw [head, place]
      rcases met e building t tail with on_path | old
      · rcases List.mem_cons.1 on_path with rfl | higher
        · exact .inr .refl
        · exact .inr (leads t higher)
      · rw [List.idxOf_append_of_mem old]
        exact .inl (List.idxOf_lt_length_iff.2 old)

/-- What is entered for a node that is finished is told by the orders that follow. -/
theorem Finished.leave_tells {memo : CountMemo} (h : g.Finished (id :: path) order memo)
    (indexed : g.Indexed) (known : id < g.nodes.size) (new : id ∉ path)
    (leads : ∀ p ∈ path, Leads g.links p id)
    (met : ∀ e ∈ g.edgesOf id, ∀ t ∈ e.tails, t ∈ id :: path ∨ t ∈ order) {n : Nat}
    (value : n = min (g.upon (g.settled order) id).length countLimit) :
    ∃ next, order <+: next ∧ g.Finished path next (memo.insert id n) ∧
      (∀ p ∈ [id], p ∈ path ∨ p ∈ next) ∧
      ∀ later, next <+: later → Fits path later → n = g.tally later id := by
  subst value
  refine ⟨order ++ [id], List.prefix_append .., h.leave indexed known new leads met, by simp, ?_⟩
  rintro _ ⟨more, rfl⟩ -
  rw [tally, settled_concat (h.fits.apart id List.mem_cons_self)]

/-! ### The contract of a count -/

section Tells

variable {α β : Type}

/-- The computation meets some nodes and finishes those that are not on the path. Its value depends
on the order in which nodes are finished, but not on what comes after that. -/
def Tells (g : Graph) (path order : List NodeId) (x : StateM CountMemo α)
    (value : List NodeId → α) (met : List NodeId) : Prop :=
  ∀ memo, g.Finished path order memo → ∃ next, order <+: next ∧
    g.Finished path next (x.run memo).2 ∧ (∀ id ∈ met, id ∈ path ∨ id ∈ next) ∧
    ∀ later, next <+: later → Fits path later → (x.run memo).1 = value later

namespace Tells

theorem pure (a : α) : g.Tells path order (Pure.pure a) (fun _ => a) [] :=
  fun _ h => ⟨order, List.prefix_refl _, h, fun _ none => absurd none List.not_mem_nil,
    fun _ _ _ => rfl⟩

theorem bind {x : StateM CountMemo α} {f : α → StateM CountMemo β} {value : List NodeId → α}
    {value' : α → List NodeId → β} {met met' : List NodeId}
    (first : g.Tells path order x value met)
    (rest : ∀ a order, g.Tells path order (f a) (value' a) met') :
    g.Tells path order (x >>= f) (fun later => value' (value later) later) (met ++ met') := by
  intro memo h
  obtain ⟨between, grown, h', met_first, told⟩ := first memo h
  obtain ⟨next, grown', h'', met_rest, told'⟩ := rest (x.run memo).1 between (x.run memo).2 h'
  refine ⟨next, grown.trans grown', h'', fun id member => ?_, fun later after fits => ?_⟩
  · rcases List.mem_append.1 member with early | late
    · exact (met_first id early).imp_right fun before => grown'.subset before
    · exact met_rest id late
  · refine (told' later after fits).trans ?_
    rw [told later (grown'.trans after) fits]

theorem map {x : StateM CountMemo α} {value : List NodeId → α} {met : List NodeId} (f : α → β)
    (first : g.Tells path order x value met) :
    g.Tells path order (do return f (← x)) (fun later => f (value later)) met := by
  intro memo h
  obtain ⟨next, grown, h', met_first, told⟩ := first memo h
  exact ⟨next, grown, h', met_first, fun later after fits => congrArg f (told later after fits)⟩

theorem foldlM {as : List α} {f : β → α → StateM CountMemo β} {h : List NodeId → β → α → β}
    {met : α → List NodeId}
    (step : ∀ b, ∀ a ∈ as, ∀ order, g.Tells path order (f b a) (fun later => h later b a) (met a))
    (b : β) (order : List NodeId) :
    g.Tells path order (as.foldlM f b) (fun later => as.foldl (h later) b) (as.flatMap met) := by
  induction as generalizing b order with
  | nil => exact .pure b
  | cons a as ih =>
      rw [List.foldlM_cons, List.flatMap_cons]
      simp only [List.foldl_cons]
      have rest : ∀ b order, g.Tells path order (as.foldlM f b)
          (fun later => as.foldl (h later) b) (as.flatMap met) :=
        ih fun b a later => step b a (List.mem_cons_of_mem _ later)
      exact .bind (step b a List.mem_cons_self order) rest

end Tells

end Tells

section Count

variable {fuel : Nat} {memo : CountMemo}

theorem run_countFrom_found {n : Nat} (entry : memo[id]? = some n) :
    (g.countFrom (fuel + 1) id).run memo = (n, memo) := by
  rw [countFrom, StateT.run_bind, StateT.run_get, pure_bind, entry]
  rfl

theorem run_countFrom_bare (absent : memo[id]? = none) (bare : g.edgesOf id = []) :
    (g.countFrom (fuel + 1) id).run memo = (1, memo.insert id 1) := by
  rw [countFrom, StateT.run_bind, StateT.run_get, pure_bind, absent, bare]
  rfl

/-- The sum over the edges of a node. -/
def sumFrom (g : Graph) (fuel : Nat) (id : NodeId) : StateM CountMemo Nat :=
  (g.edgesOf id).foldlM (fun total edge => do
    let product ← edge.tails.foldlM (fun product tail => do
      return saturatingMul product (← g.countFrom fuel tail)) 1
    return saturatingAdd total product) 0

theorem run_countFrom_edges (absent : memo[id]? = none) (listed : g.edgesOf id ≠ []) :
    (g.countFrom (fuel + 1) id).run memo =
      (((g.sumFrom fuel id).run (memo.insert id 0)).1,
        ((g.sumFrom fuel id).run (memo.insert id 0)).2.insert id
          ((g.sumFrom fuel id).run (memo.insert id 0)).1) := by
  rw [countFrom, StateT.run_bind, StateT.run_get, pure_bind, absent]
  dsimp only
  rw [if_neg (mt List.isEmpty_iff.1 listed)]
  rfl

theorem sumFrom_tells
    (each : ∀ e ∈ g.edgesOf id, ∀ t ∈ e.tails, ∀ order,
      g.Tells path order (g.countFrom fuel t) (g.tally · t) [t]) (order : List NodeId) :
    g.Tells path order (g.sumFrom fuel id)
      (fun later => (g.edgesOf id).foldl (fun total e => saturatingAdd total
        (e.tails.foldl (fun product t => saturatingMul product (g.tally later t)) 1)) 0)
      ((g.edgesOf id).flatMap fun e => e.tails.flatMap fun t => [t]) := by
  refine .foldlM (fun total e building order => ?_) 0 order
  refine .map (saturatingAdd total) (.foldlM (fun product t tail order => ?_) 1 order)
  exact .map (saturatingMul product) (each e building t tail order)

/-- The count of a node is told by the order in which nodes are finished. The nodes above it lead to
it, so that an edge which is cut there closes a cycle. -/
theorem countFrom_tells (indexed : g.Indexed) (descent : g.Descent fuel path)
    (leads : ∀ p ∈ path, Leads g.links p id) (known : id < g.nodes.size) (order : List NodeId) :
    g.Tells path order (g.countFrom fuel id) (g.tally · id) [id] := by
  induction fuel generalizing path id order with
  | zero => exact absurd descent Descent.fuel_ne_zero
  | succ fuel ih =>
      intro memo h
      cases entry : memo[id]? with
      | some n =>
          have met := h.entered entry
          rw [run_countFrom_found entry]
          refine ⟨order, List.prefix_refl _, h, by simpa using met, fun later after fits => ?_⟩
          exact (h.entry_eq entry).trans (tally_of_met met h.fits after fits).symm
      | none =>
          obtain ⟨new, fresh⟩ := h.new entry
          have here := Array.getElem?_eq_getElem known
          by_cases bare : g.edgesOf id = []
          · rw [run_countFrom_bare entry bare]
            have one : 1 = min (g.upon (g.settled order) id).length countLimit := by
              rw [upon, here]
              dsimp only
              rw [if_pos (List.isEmpty_iff.2 ((indexed.edgesOf_eq_nil_iff here).1 bare))]
              exact (Nat.min_eq_left (show 1 ≤ countLimit by decide)).symm
            obtain ⟨last, grown, h', met, told⟩ := (h.enter entry).leave_tells indexed known new
              leads (fun e building => absurd (bare ▸ building) List.not_mem_nil) one
            -- The count does not enter such a node before it finishes it, which comes to the same.
            refine ⟨last, grown, h'.congr fun p => ?_, met, told⟩
            simp only [Std.TreeMap.getElem?_insert]
            split <;> rfl
          · rw [run_countFrom_edges entry bare]
            -- The node is above its tails now, and what is above it is above them, too.
            have links : ∀ e ∈ g.edgesOf id, ∀ t ∈ e.tails, ∀ p ∈ id :: path,
                Leads g.links p t := by
              intro e building t tail p member
              obtain ⟨stored, rfl⟩ := indexed.mem_edgesOf building
              have link := linked_iff.2 ⟨e, stored, rfl, tail⟩
              rcases List.mem_cons.1 member with rfl | above
              · exact .single link
              · exact (leads p above).tail link
            obtain ⟨next, grown, h', met, told⟩ := sumFrom_tells
              (fun e building t tail => ih (descent.step new known) (links e building t tail)
                (indexed.tail_known building tail)) order _ (h.enter entry)
            have value := told next (List.prefix_refl _) h'.fits
            have listed := mt (indexed.edgesOf_eq_nil_iff here).2 bare
            obtain ⟨last, grown', h'', met', told'⟩ := h'.leave_tells indexed known new leads
              (fun e building t tail => met t (by simpa using ⟨e, building, tail⟩))
              (value.trans (foldl_upon here listed _))
            exact ⟨last, grown.trans grown', h'', met', told'⟩

end Count

/-- Past the nodes that are finished the node leads to nothing else. -/
theorem Finished.mem_of_leads {memo : CountMemo} (h : g.Finished [] order memo)
    (member : id ∈ order) {p : NodeId} (path : Leads g.links id p) : p ∈ order := by
  induction path with
  | refl => exact member
  | tail _ link before =>
      obtain ⟨e, stored, rfl, tail⟩ := linked_iff.1 link
      exact (h.closing e stored before _ tail).1.resolve_left List.not_mem_nil

/-- In a graph that was put together step by step, cycles included, the nodes have ranks such that
the count of a node is the number of its derivations that go down in rank, as far as numbers go. A
tail ranks lower than the head unless it leads back to it. So no node stands below itself in these
derivations, and they are all of this kind if different nodes do not lead to each other. -/
theorem Built.derivationCount_falling {g : Graph} (built : g.Built) {id : NodeId}
    (known : id < g.nodes.size) : ∃ (rank : NodeId → Nat) (ds : List Derivation),
      g.derivationCount id = .ok (min ds.length countLimit) ∧ ds.Nodup ∧
      (∀ d, d ∈ ds ↔ d.Of g id ∧ d.Falls rank) ∧
      (∀ e ∈ g.edges.toList, Leads g.links id e.head → ∀ t ∈ e.tails,
        rank t < rank e.head ∨ Leads g.links t e.head) ∧
      (∀ d ∈ ds, d.Simple) ∧
      ((∀ a b, Leads g.links id a → Leads g.links a b → Leads g.links b a → a = b) →
        ∀ d, d.Of g id → d.Simple → d ∈ ds) := by
  have indexed := built.indexed
  obtain ⟨order, -, h, met, told⟩ := countFrom_tells indexed (.start g)
    (fun _ none => absurd none List.not_mem_nil) known [] ∅ (.start g)
  have member : id ∈ order :=
    (met id (List.mem_singleton_self _)).resolve_left List.not_mem_nil
  have all_of {d : Derivation} : d ∈ g.falling (order.idxOf ·) id ↔
      d.Of g id ∧ d.Falls (order.idxOf ·) := mem_falling indexed.coherent
  have ranked : ∀ e ∈ g.edges.toList, Leads g.links id e.head → ∀ t ∈ e.tails,
      order.idxOf t < order.idxOf e.head ∨ Leads g.links t e.head :=
    fun e stored path t tail => (h.closing e stored (h.mem_of_leads member path) t tail).2
  refine ⟨(order.idxOf ·), g.falling (order.idxOf ·) id, ?_, nodup_falling indexed id,
    fun d => all_of, ranked, fun d listed => (all_of.1 listed).2.simple,
    fun apart d derives simple =>
      all_of.2 ⟨derives, falls_of_simple indexed.coherent ranked apart derives simple⟩⟩
  have here : g.node id = .ok g.nodes[id] := by
    rw [node, Array.getElem?_eq_getElem known]
  have value : _ = g.tally order id := told order (List.prefix_refl _) h.fits
  rw [tally, settled, if_pos member] at value
  rw [derivationCount, here, ← value]
  rfl

/-! ### Two nodes that lead to each other -/

/-- A word over two others. Each of these is built out of nothing, or out of the other one. -/
def crossed : Graph :=
  (((((ofWords [0, 0, 0]).pushEdge { EdgeRecord.new 0 with tails := [1, 2] }).pushEdge
    { EdgeRecord.new 1 with tails := [2] }).pushEdge (.new 1)).pushEdge
    { EdgeRecord.new 2 with tails := [1] }).pushEdge (.new 2)

theorem crossed_built : crossed.Built :=
  ((((Built.ofWords [0, 0, 0]).pushEdge rfl (by decide) (by decide)).pushEdge rfl (by decide)
    (by decide)).pushEdge rfl (by decide) (by decide)).pushEdge rfl (by decide) (by decide)
    |>.pushEdge rfl (by decide) (by decide)

/-- Each of the two words has two derivations, one of them out of the other word, and so the word
over them has four in which no word stands below itself. The count finds one only for the word that
it finishes first, while the other is in progress, and uses this again after that. -/
theorem derivationCount_crossed : crossed.Built ∧ crossed.derivationCount 1 = .ok 2 ∧
    crossed.derivationCount 2 = .ok 2 ∧ crossed.derivationCount 0 = .ok 2 ∧
    ∃ ds : List Derivation, ds.Nodup ∧ (∀ d, d ∈ ds ↔ d.Of crossed 0 ∧ d.Simple) ∧
      min ds.length countLimit = 4 :=
  ⟨crossed_built, rfl, rfl, rfl, crossed.simples 0, nodup_simples crossed_built.indexed 0,
    fun _ => mem_simples crossed_built.indexed.coherent, by decide +kernel⟩

/-- The ranks leave two of the four derivations. -/
theorem Built.derivationCount_falling_crossed : crossed.Built ∧ 0 < crossed.nodes.size ∧
    ∃ (rank : NodeId → Nat) (ds : List Derivation), ds.length = 2 ∧ ds.Nodup ∧
      (∀ d, d ∈ ds ↔ d.Of crossed 0 ∧ d.Falls rank) ∧ ∀ d ∈ ds, d.Simple := by
  have known : 0 < crossed.nodes.size := by decide
  obtain ⟨rank, ds, count, nodup, all, -, simple, -⟩ := crossed_built.derivationCount_falling known
  have two : crossed.derivationCount 0 = .ok 2 := rfl
  have limit : 2 < countLimit := by decide
  have length := Except.ok.inj (two.symm.trans count)
  exact ⟨crossed_built, known, rank, ds, by omega, nodup, all, simple⟩

end Graph

end PackedForest
