import PackedForest.Derivation
import PackedForest.Graph.Display
import PackedForest.Proofs.Graph.Arena
import PackedForest.Proofs.Related
import PackedForest.Proofs.Rule.Naming

/-!
# Graphs that can be shown

Showing a graph only looks up what it mentions: names in the vocabulary, and edges by the numbers
that nodes list. Where the vocabulary names all of the former and the stores of the graph agree,
nothing is missing (`Graph.render_succeeds`). The features of a fragment have no names but those of
its edges, so they can be shown as well (`Fragment.features_named`).
-/

namespace PackedForest

/-- The operation gives a result. -/
def Succeeds {ε α : Type} (x : Except ε α) : Prop := ∃ a, x = .ok a

namespace Succeeds

variable {ε α β : Type}

theorem pure (a : α) : Succeeds (Pure.pure a : Except ε α) := ⟨a, rfl⟩

theorem bind {x : Except ε α} {f : α → Except ε β} (first : Succeeds x)
    (rest : ∀ a, x = .ok a → Succeeds (f a)) : Succeeds (x >>= f) := by
  obtain ⟨a, rfl⟩ := first
  exact rest a rfl

theorem mapM {f : α → Except ε β} {as : List α} (each : ∀ a ∈ as, Succeeds (f a)) :
    Succeeds (as.mapM f) := by
  obtain ⟨bs, made⟩ := exists_forall₂ each
  exact ⟨bs, mapM_eq_ok_iff.2 made⟩

end Succeeds

variable {v : Vocabulary}

/-! ### Names -/

/-- The vocabulary names every name of the vector. -/
def Features.Named (v : Vocabulary) (f : Features) : Prop := ∀ entry ∈ f.entries, v.Names entry.1

/-- The vocabulary names every number in the graph. -/
structure Graph.Named (v : Vocabulary) (g : Graph) : Prop where
  words : ∀ id ∈ g.words, v.Names id
  sym : ∀ n ∈ g.nodes.toList, v.Names n.sym
  features : ∀ e ∈ g.edges.toList, e.features.Named v
  targets : ∀ e ∈ g.edges.toList, ∀ side ∈ e.targets, ∀ symbol ∈ side, symbol.Named v

theorem Features.Named.add {f g : Features} (h : f.Named v) (more : g.Named v) :
    (f.add g).Named v := by
  unfold Features.add
  unfold Features.Named at more
  generalize g.entries = entries at more
  induction entries generalizing f with
  | nil => exact h
  | cons entry entries ih =>
      obtain ⟨here, later⟩ := List.forall_mem_cons.1 more
      refine ih ?_ later
      dsimp only
      split
      · intro other listed
        rcases Features.mem_insertEntry listed with rfl | old
        · exact here
        · exact h other old
      · exact h

/-- A fragment has no features but those of its edges. -/
theorem Fragment.features_named {f : Fragment} (edges : ∀ e ∈ f.edges, e.features.Named v) :
    f.features.Named v := by
  have sums : ∀ {es : List Edge} {sum : Features}, sum.Named v →
      (∀ e ∈ es, e.features.Named v) →
      (es.foldl (fun (sum : Features) e => sum.add e.features) sum).Named v := by
    intro es
    induction es with
    | nil => exact fun named _ => named
    | cons e es ih =>
        intro sum named each
        obtain ⟨here, later⟩ := List.forall_mem_cons.1 each
        exact ih (named.add here) later
  exact sums (fun _ listed => by cases listed) edges

/-! ### Texts -/

theorem Features.render_succeeds {f : Features} (named : f.Named v) : Succeeds (f.render v) :=
  .bind (.mapM fun entry listed => .bind (named entry listed) fun _ _ => .pure _)
    fun _ _ => .pure _

theorem Symbol.render_succeeds {symbol : Symbol} (named : symbol.Named v) :
    Succeeds (symbol.render v) := by
  cases symbol with
  | word id => exact named
  | slot index => exact .pure _

theorem Edge.render_succeeds {e : Edge} (features : e.features.Named v)
    (targets : ∀ side ∈ e.targets, ∀ symbol ∈ side, symbol.Named v) : Succeeds (e.render v) := by
  have sides : Succeeds (renderTargets v e.targets) :=
    .bind (.mapM fun side listed => .bind (.mapM fun symbol member =>
      Symbol.render_succeeds (targets side listed symbol member)) fun _ _ => .pure _)
      fun _ _ => .pure _
  refine .bind sides fun _ _ => ?_
  dsimp only
  split
  · exact .pure _
  · exact .bind (Features.render_succeeds features) fun _ _ => .pure _

theorem Graph.render_succeeds {g : Graph} (indexed : g.Indexed) (named : g.Named v) :
    Succeeds (g.render v) := by
  refine .bind (.bind (.mapM named.words) fun _ _ => .pure _) fun _ _ =>
    .bind (.mapM fun n stored => ?_) fun _ _ => .pure _
  refine .bind (named.sym n stored) fun _ _ => .bind (.mapM fun id listed => ?_) fun _ _ => .pure _
  obtain ⟨i, here⟩ := List.mem_iff_getElem?.1 stored
  rw [Array.getElem?_toList] at here
  rw [indexed.node_edges here] at listed
  have inside : id < g.edges.size := List.mem_range.1 (List.mem_of_mem_filter listed)
  have found := Array.getElem?_eq_getElem inside
  have edge : g.edge id = .ok g.edges[id] := by rw [Graph.edge, found]
  refine .bind ⟨_, edge⟩ fun e same => .bind ?_ fun _ _ => .pure _
  obtain rfl := Except.ok.inj (edge.symm.trans same)
  have member := Array.mem_toList_iff.2 (Array.mem_of_getElem? found)
  exact Edge.render_succeeds (named.features _ member) (named.targets _ member)

end PackedForest
