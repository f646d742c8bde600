import PackedForest.Count
import PackedForest.Proofs.Graph.Showing
import PackedForest.Proofs.Renaming.Basic

/-!
# Graphs under a renaming

A renaming of numbers changes the words, the symbols, the target words and the names of features of
a graph, but neither its nodes and edges nor their numbers. So every node keeps its count
(`Graph.derivationCount_rename`). In a vocabulary in which the new numbers name what the old ones
did, the graph is shown by the same text (`Graph.Renames.render_eq`).
-/

namespace PackedForest

open Vocabulary

def Node.rename (f : Nat → Nat) (n : Node) : Node :=
  { n with
    sym := renameId f n.sym
    targetWords := n.targetWords.map (List.map (renameId f)) }

def EdgeRecord.rename (f : Nat → Nat) (r : EdgeRecord) : EdgeRecord :=
  { r with
    features := r.features.rename f
    targets := r.targets.map (List.map (.rename f)) }

def Edge.rename (f : Nat → Nat) (e : Edge) : Edge :=
  { e with
    features := e.features.rename f
    targets := e.targets.map (List.map (.rename f)) }

namespace Graph

def rename (f : Nat → Nat) (g : Graph) : Graph where
  words := g.words.map (renameId f)
  nodes := g.nodes.map (.rename f)
  edges := g.edges.map (.rename f)

variable (f : Nat → Nat) (g : Graph)

@[simp] theorem size_nodes_rename : (g.rename f).nodes.size = g.nodes.size := Array.size_map

theorem rename_pushNode (sym : WordId) (span : Span) :
    (g.pushNode (.new sym span)).rename f = (g.rename f).pushNode (.new (renameId f sym) span) := by
  simp only [pushNode, rename, Array.map_push, Array.size_map]
  rfl

theorem rename_pushEdge (r : EdgeRecord) :
    (g.pushEdge r).rename f = (g.rename f).pushEdge (r.rename f) := by
  have nodes : ((g.pushEdge r).nodes.map (Node.rename f)) =
      ((g.rename f).pushEdge (r.rename f)).nodes := by
    refine Array.ext_getElem? fun i => ?_
    rw [Array.getElem?_map, getElem?_nodes_pushEdge, getElem?_nodes_pushEdge, rename,
      Array.getElem?_map, Option.map_map, Option.map_map]
    refine congrArg (Option.map · g.nodes[i]?) (funext fun n => ?_)
    simp only [Function.comp_apply, EdgeRecord.rename, Array.size_map]
    split <;> rfl
  have edges : ((g.pushEdge r).edges.map (Edge.rename f)) =
      ((g.rename f).pushEdge (r.rename f)).edges := by
    rw [edges_pushEdge, edges_pushEdge, Array.map_push, rename, Array.size_map]
    rfl
  exact congr (congrArg (Graph.mk _) nodes) edges

theorem node_rename (id : NodeId) : (g.rename f).node id = (g.node id).map (.rename f) := by
  rw [node, node, rename, Array.getElem?_map, Array.size_map]
  cases g.nodes[id]? <;> rfl

theorem edge_rename (id : EdgeId) : (g.rename f).edge id = (g.edge id).map (.rename f) := by
  rw [edge, edge, rename, Array.getElem?_map, Array.size_map]
  cases g.edges[id]? <;> rfl

theorem edgesOf_rename (id : NodeId) :
    (g.rename f).edgesOf id = (g.edgesOf id).map (.rename f) := by
  rw [edgesOf, edgesOf, rename, Array.getElem?_map]
  cases g.nodes[id]? with
  | none => rfl
  | some n =>
      rw [Option.map_some, List.map_filterMap]
      simp only [Array.getElem?_map]
      rfl

theorem countFrom_rename (fuel : Nat) (id : NodeId) :
    (g.rename f).countFrom fuel id = g.countFrom fuel id := by
  induction fuel generalizing id with
  | zero => rfl
  | succ fuel ih =>
      rw [countFrom, countFrom]
      simp only [edgesOf_rename, List.isEmpty_map, List.foldlM_map, Edge.rename, ih]

/-- A renaming does not change how often a node is derived. -/
theorem derivationCount_rename (id : NodeId) :
    (g.rename f).derivationCount id = g.derivationCount id := by
  rw [derivationCount, derivationCount, node_rename, countFrom_rename, size_nodes_rename]
  cases g.node id <;> rfl

end Graph

/-- The numbers of `w` are renamed to numbers of `w'`. Both extend the vocabulary `u`, whose numbers
stay. -/
structure Vocabulary.Renames (u w w' : Vocabulary) (f : Nat → Nat) : Prop where
  source : w.Extends u
  target : w'.Extends u
  fixed : u.FixedBy f

variable {u w w' : Vocabulary} {f : Nat → Nat}

theorem Vocabulary.Renames.symbol_eq (h : u.Renames w w' f) {id : WordId} (named : u.Names id) :
    w'.symbol (renameId f id) = w.symbol id := by
  obtain ⟨s, here⟩ := named
  rw [h.fixed id (.inl ⟨s, here⟩), h.source.symbol here, h.target.symbol here]

/-- The numbers of a graph name the same in the second vocabulary, renamed, as in the first. Other
numbers than those of `u` are only among its words and the target words of its edges. -/
structure Graph.Renames (u w w' : Vocabulary) (f : Nat → Nat) (g : Graph) : Prop where
  vocabulary : u.Renames w w' f
  words : ∀ id ∈ g.words, w'.symbol (renameId f id) = w.symbol id
  sym : ∀ n ∈ g.nodes.toList, u.Names n.sym
  features : ∀ e ∈ g.edges.toList, e.features.Named u
  targets : ∀ e ∈ g.edges.toList, ∀ side ∈ e.targets, ∀ symbol ∈ side,
    (symbol.rename f).render w' = symbol.render w

/-- Passes over two lists come to the same if each of their steps does. -/
theorem mapM_map_congr {ε α β γ : Type} {f : β → Except ε γ} {g : α → Except ε γ} {h : α → β}
    {as : List α} (same : ∀ a ∈ as, f (h a) = g a) : (as.map h).mapM f = as.mapM g := by
  induction as with
  | nil => rfl
  | cons a as ih =>
      obtain ⟨here, later⟩ := List.forall_mem_cons.1 same
      rw [List.map_cons, List.mapM_cons, List.mapM_cons, here, ih later]

theorem Features.Named.render_eq {features : Features} (named : features.Named u)
    (more : w.Extends u) (more' : w'.Extends u) : features.render w' = features.render w := by
  have items : (features.entries.map fun entry => entry).mapM (fun entry => do
      let name ← w'.symbol entry.1
      return s!"\"{name}\": {Decimal.plainText entry.2}" : _ → Except Fault String) =
      features.entries.mapM fun entry => do
        let name ← w.symbol entry.1
        return s!"\"{name}\": {Decimal.plainText entry.2}" :=
    mapM_map_congr fun entry listed => by
      obtain ⟨s, here⟩ := named entry listed
      rw [more.symbol here, more'.symbol here]
  rw [List.map_id'] at items
  rw [Features.render, Features.render, items]

namespace Graph.Renames

variable {g : Graph} (h : g.Renames u w w' f)

include h

theorem renderTargets_eq {e : Edge} (stored : e ∈ g.edges.toList) :
    Edge.renderTargets w' (e.rename f).targets = Edge.renderTargets w e.targets := by
  have sides : ((e.targets.map (List.map (.rename f))).mapM fun side => do
        let symbols ← side.mapM (Symbol.render w')
        return String.join (symbols.map (" " ++ ·)) : Except Fault (List String)) =
      e.targets.mapM fun side => do
        let symbols ← side.mapM (Symbol.render w)
        return String.join (symbols.map (" " ++ ·)) :=
    mapM_map_congr fun side listed => by rw [mapM_map_congr (h.targets e stored side listed)]
  rw [Edge.renderTargets, Edge.renderTargets, Edge.rename, sides]

theorem render_edge_eq {e : Edge} (stored : e ∈ g.edges.toList) :
    (e.rename f).render w' = e.render w := by
  have same : (e.rename f).features = e.features :=
    Features.rename_eq h.vocabulary.fixed (h.features e stored)
  rw [Edge.render, Edge.render, same, h.renderTargets_eq stored,
    (h.features e stored).render_eq h.vocabulary.source h.vocabulary.target]
  rfl

theorem renderNode_eq {n : Node} (stored : n ∈ g.nodes.toList) :
    (g.rename f).renderNode w' (n.rename f) = g.renderNode w n := by
  have edges : ∀ id, (do
        let e ← (g.rename f).edge id
        return "  " ++ (← e.render w') ++ "\n" : Except Fault String) = do
        let e ← g.edge id
        return "  " ++ (← e.render w) ++ "\n" := by
    intro id
    rw [edge_rename]
    cases found : g.edge id with
    | error fault => rfl
    | ok e =>
        have stored : e ∈ g.edges.toList := by
          unfold Graph.edge at found
          split at found
          · next here =>
              cases found
              exact Array.mem_toList_iff.2 (Array.mem_of_getElem? here)
          · cases found
        change (do return "  " ++ (← (e.rename f).render w') ++ "\n" : Except Fault String) = _
        rw [h.render_edge_eq stored]
        rfl
  rw [renderNode, renderNode, Node.rename, h.vocabulary.symbol_eq (h.sym n stored), funext edges]

/-- A graph and its renamed form are shown by the same text, each in its own vocabulary. -/
theorem render_eq : (g.rename f).render w' = g.render w := by
  have words : w'.phrase (g.rename f).words = w.phrase g.words := by
    rw [phrase, phrase, rename, mapM_map_congr h.words]
  have nodes : (g.rename f).nodes.toList.mapM ((g.rename f).renderNode w') =
      g.nodes.toList.mapM (g.renderNode w) := by
    rw [rename, Array.toList_map]
    exact mapM_map_congr fun n stored => h.renderNode_eq stored
  rw [render, render, words, nodes]

end Graph.Renames

end PackedForest
