import Mathlib.Tactic.Choose
import PackedForest.Proofs.Graph.Enumeration
import PackedForest.Proofs.Parser.Packing

/-!
# Derivations and analyses

An analysis of a tuple over a span is a tree of choices: a choice that builds the tuple, with an
analysis of each tuple that it leaves to be built. `Analysis.Of` is about the tables alone.

Unless unary rules lead from a tuple back to itself, the derivations of a node are its analyses,
one for one (`Parser.LoadedFrom.derivations_correspond`). The forest shares nodes, so both sides
are unfolded together from below: the pairs for a node come from the pairs for the tails of its
edges, and the edges go with the choices.
-/

namespace PackedForest

open Relation (TransGen)

/-- A choice, with analyses of the tuples that it leaves to be built. -/
inductive Analysis
  | node (choice : Choice) (below : List Analysis)

namespace Analysis

/-- The choice for the tuple itself. -/
def choice : Analysis → Choice
  | node c _ => c

variable (p : Parser) (tables : List RuleTable) (sentence : List WordId)

/-- The analyses of a tuple over a span. -/
inductive Of : Span → Labels → Analysis → Prop
  | node {span : Span} {c : Choice} {r : Rule} {keep : Bool} {keys : List (Span × Labels)}
      {below : List Analysis} (applies : c.Applies p tables sentence span r keep keys)
      (built : List.Forall₂ (fun key a => Of key.1 key.2 a) keys below) :
      Of span r.head (.node c below)

/-- A derivation takes the same choices: its edges are those of the rules. -/
inductive Matches : Analysis → Derivation → Prop
  | node {c : Choice} {r : Rule} {keep : Bool} {keys : List (Span × Labels)} {node : Node}
      {e : Edge} {below : List Analysis} {ds : List Derivation}
      (applies : c.Applies p tables sentence node.span r keep keys)
      (made : e.unnumbered = (⟨r, e.tails, keep⟩ : Application).edge node.id)
      (parts : List.Forall₂ Matches below ds) : Matches (.node c below) (.step node e ds)

variable {p tables sentence}

/-- What has an analysis is recognized. -/
theorem Of.derives {span : Span} {labels : Labels} {a : Analysis}
    (built : a.Of p tables sentence span labels) : p.Derives tables sentence span labels := by
  match a, built with
  | .node c below, @Of.node _ _ _ _ _ r keep keys _ applies parts =>
    have each : ∀ key ∈ keys, p.Derives tables sentence key.1 key.2 := by
      intro key member
      obtain ⟨a, listed, built⟩ := exists_of_forall₂_left parts member
      exact built.derives
    cases applies with
    | rule known stored several narrow length cut fits =>
        refine .rule (List.mem_of_getElem? known) (List.mem_of_getElem? stored) several narrow
          length cut fits ?_
        intro slot piece labels placed slot_eq
        exact each (piece, labels) (Rule.mem_gapKeys placed slot_eq)
    | unary known stored single slot =>
        exact .unary (List.mem_of_getElem? known) (List.mem_of_getElem? stored) single slot
          (each _ List.mem_cons_self)
    | unknown here kept unused => exact .unknown here kept unused
termination_by a

/-- The pairs by one edge and the choice that it goes with, for given pairs of the tails. -/
def pairs (P : NodeId → List (Analysis × Derivation)) (node : Node)
    (y : (Choice × Application) × Edge) : List (Analysis × Derivation) :=
  (picks (y.2.tails.map P)).map fun pick =>
    (.node y.1.1 (pick.map (·.1)), .step node y.2 (pick.map (·.2)))

theorem map_fst_pairs (P : NodeId → List (Analysis × Derivation)) (node : Node)
    (y : (Choice × Application) × Edge) : (pairs P node y).map (·.1) =
      (picks (y.2.tails.map fun t => (P t).map (·.1))).map (.node y.1.1) := by
  have tails : (y.2.tails.map fun t => (P t).map (·.1)) =
      (y.2.tails.map P).map (List.map (·.1)) := by rw [List.map_map]; rfl
  rw [tails, picks_map, pairs, List.map_map, List.map_map]
  rfl

theorem map_snd_pairs (P : NodeId → List (Analysis × Derivation)) (node : Node)
    (y : (Choice × Application) × Edge) : (pairs P node y).map (·.2) =
      (picks (y.2.tails.map fun t => (P t).map (·.2))).map (.step node y.2) := by
  have tails : (y.2.tails.map fun t => (P t).map (·.2)) =
      (y.2.tails.map P).map (List.map (·.2)) := by rw [List.map_map]; rfl
  rw [tails, picks_map, pairs, List.map_map, List.map_map]
  rfl

end Analysis

namespace Parser

open Analysis (pairs)

variable {p : Parser} {tables : List RuleTable} {sentence : List WordId}

/-- Each derivation of a node with the analysis that it goes with. -/
structure Paired (p : Parser) (tables : List RuleTable) (sentence : List WordId) (span : Span)
    (labels : Labels) (unfolded : List Derivation) (paired : List (Analysis × Derivation)) :
    Prop where
  derivations : paired.map (·.2) = unfolded
  nodup : (paired.map (·.1)).Nodup
  mem_iff : ∀ {a : Analysis}, a ∈ paired.map (·.1) ↔ a.Of p tables sentence span labels
  matched : ∀ x ∈ paired, x.1.Matches p tables sentence x.2

namespace Chosen

variable {span : Span} {labels : Labels} {id : NodeId} {node : Node}
  {chosen : List ((Choice × Application) × Edge)}
  (split : Chosen p tables sentence span labels id chosen)
  {U : NodeId → List Derivation} {P : NodeId → List (Analysis × Derivation)}
  (below : ∀ y ∈ chosen, ∀ t ∈ y.2.tails, ∀ span labels,
    (p.parse sentence).chart.find? span labels = some t →
      Paired p tables sentence span labels (U t) (P t))

include split below

/-- The derivations of the pairs are those of the node, in order. -/
theorem derivations_pairs : (chosen.flatMap (pairs P node)).map (·.2) =
    ((p.parse sentence).graph.edgesOf id).flatMap fun e =>
      (picks (e.tails.map U)).map (.step node e) := by
  rw [List.map_flatMap, ← split.edges, List.flatMap_map]
  refine List.flatMap_congr fun y member => ?_
  obtain ⟨-, keys, -, tails⟩ := split.exists_keys member
  rw [Analysis.map_snd_pairs]
  congr 2
  refine List.map_congr_left fun t tail => ?_
  obtain ⟨key, -, key_found⟩ := exists_of_forall₂_left tails.flip tail
  exact (below y member t tail _ _ key_found).derivations

theorem nodup_pairs : ((chosen.flatMap (pairs P node)).map (·.1)).Nodup := by
  rw [List.map_flatMap]
  refine nodup_flatMap_of_key (·.1.1) split.nodup ?_ Analysis.choice ?_
  · intro y member
    obtain ⟨-, keys, -, tails⟩ := split.exists_keys member
    rw [Analysis.map_fst_pairs]
    refine (nodup_picks fun as listed => ?_).map fun _ _ same => (Analysis.node.inj same).2
    obtain ⟨t, tail, rfl⟩ := List.mem_map.1 listed
    obtain ⟨key, -, key_found⟩ := exists_of_forall₂_left tails.flip tail
    exact (below y member t tail _ _ key_found).nodup
  · intro y a listed
    rw [Analysis.map_fst_pairs] at listed
    obtain ⟨pick, -, rfl⟩ := List.mem_map.1 listed
    rfl

omit split in
/-- What is picked for the tails of an edge are analyses of the keys that they are nodes of. -/
theorem picked_iff {y : (Choice × Application) × Edge} (member : y ∈ chosen)
    {keys : List (Span × Labels)}
    (tails : (p.parse sentence).chart.Finds keys y.2.tails) {as : List Analysis} :
    as ∈ picks (y.2.tails.map fun t => (P t).map (·.1)) ↔
      List.Forall₂ (fun key a => a.Of p tables sentence key.1 key.2) keys as := by
  rw [mem_picks, List.forall₂_map_left_iff]
  refine Iff.symm (forall₂_congr_of tails ?_)
  intro key t tail key_found a
  exact (below y member t tail _ _ key_found).mem_iff.symm

/-- The analyses of the pairs are those of the tuple. -/
theorem mem_pairs_iff (h : p.LoadedFrom tables) {a : Analysis} :
    a ∈ (chosen.flatMap (pairs P node)).map (·.1) ↔ a.Of p tables sentence span labels := by
  rw [List.map_flatMap, List.mem_flatMap]
  constructor
  · rintro ⟨y, member, listed⟩
    obtain ⟨rfl, keys, applies, tails⟩ := split.exists_keys member
    rw [Analysis.map_fst_pairs] at listed
    obtain ⟨as, picked, rfl⟩ := List.mem_map.1 listed
    exact .node applies ((picked_iff below member tails).1 picked)
  · intro built
    cases built with
    | @node _ c r keep keys as applies parts =>
        have nodes : ∀ key ∈ keys, ∃ t,
            (p.parse sentence).chart.find? key.1 key.2 = some t := by
          intro key listed
          obtain ⟨a, -, built⟩ := exists_of_forall₂_left parts listed
          exact Option.isSome_iff_exists.1 (h.isSome_of_derives built.derives)
        obtain ⟨tails, tails_found⟩ := exists_forall₂ nodes
        have choice : (c, ⟨r, tails, keep⟩) ∈ chosen.map (·.1) :=
          split.mem_iff.2 ⟨rfl, keys, applies, tails_found⟩
        obtain ⟨y, member, taken⟩ := List.mem_map.1 choice
        obtain rfl : y.1.1 = c := congrArg Prod.fst taken
        have tails_eq : y.2.tails = tails := (split.tails_eq member).trans
          (congrArg (fun x => x.2.tails) taken)
        refine ⟨y, member, ?_⟩
        rw [Analysis.map_fst_pairs]
        exact List.mem_map_of_mem
          ((picked_iff below member (tails_eq ▸ tails_found)).2 parts)

theorem matched_pairs (node_span : node.span = span) (numbered : node.id = id) :
    ∀ x ∈ chosen.flatMap (pairs P node), x.1.Matches p tables sentence x.2 := by
  intro x listed
  obtain ⟨y, member, made⟩ := List.mem_flatMap.1 listed
  obtain ⟨pick, picked, rfl⟩ := List.mem_map.1 made
  obtain ⟨-, keys, applies, tails⟩ := split.exists_keys member
  rw [mem_picks, List.forall₂_map_left_iff] at picked
  refine .node (node_span ▸ applies) ?_ ?_
  · rw [split.made y member, split.tails_eq member, numbered]
  · rw [List.forall₂_map_left_iff, List.forall₂_map_right_iff, List.forall₂_same]
    intro x chosen_below
    obtain ⟨t, tail, listed⟩ := exists_of_forall₂_left picked.flip chosen_below
    obtain ⟨key, -, key_found⟩ := exists_of_forall₂_left tails.flip tail
    exact (below y member t tail _ _ key_found).matched x listed

end Chosen

namespace LoadedFrom

section Whole

variable (h : p.LoadedFrom tables)
  (noncyclic : ∀ labels, ¬ TransGen (UnaryOver tables) labels labels)
  (indexed : (p.parse sentence).graph.Indexed) (acyclic : (p.parse sentence).graph.Acyclic)

include h noncyclic

/-- From the tails of the edges to their head, each node is paired. -/
theorem exists_paired (id : NodeId) : ∃ paired, ∀ span labels,
    (p.parse sentence).chart.find? span labels = some id →
      Paired p tables sentence span labels (Graph.unfold indexed acyclic id) paired := by
  obtain ⟨fills, filled⟩ := p.parse_filled sentence
  have wf := filled.wellFormed
  induction id using Graph.tails_induction indexed acyclic with
  | step id ih =>
      by_cases known : ∃ span labels, (p.parse sentence).chart.find? span labels = some id
      · obtain ⟨span, labels, found⟩ := known
        obtain ⟨chosen, split⟩ := exists_chosen h noncyclic found
        -- A tail may be one of several edges, so its pairs are taken once, whatever the edge.
        have each : ∀ t, ∃ paired, ∀ y ∈ chosen, t ∈ y.2.tails → ∀ span labels,
            (p.parse sentence).chart.find? span labels = some t →
              Paired p tables sentence span labels (Graph.unfold indexed acyclic t) paired := by
          intro t
          by_cases tail : ∃ y ∈ chosen, t ∈ y.2.tails
          · obtain ⟨y, member, listed⟩ := tail
            have building : y.2 ∈ (p.parse sentence).graph.edgesOf id :=
              split.edges ▸ List.mem_map_of_mem member
            obtain ⟨paired, holds⟩ := ih y.2 building t listed
            exact ⟨paired, fun _ _ _ => holds⟩
          · exact ⟨[], fun y member listed => absurd ⟨y, member, listed⟩ tail⟩
        choose P below using each
        replace below := fun y member t listed => below t y member listed
        obtain ⟨node, here, node_span⟩ := Option.map_eq_some_iff.1 (wf.spanOf?_eq found)
        have listed : node.edges ≠ [] :=
          mt (indexed.edgesOf_eq_nil_iff here).2 (filled.edgesOf_ne_nil found)
        refine ⟨chosen.flatMap (pairs P node), fun span' labels' found' => ?_⟩
        obtain ⟨rfl, rfl⟩ := wf.key_unique found found'
        refine ⟨?_, split.nodup_pairs below, split.mem_pairs_iff below h,
          split.matched_pairs below node_span (indexed.node_id here)⟩
        rw [split.derivations_pairs below, Graph.unfold_eq indexed acyclic here,
          if_neg (mt List.isEmpty_iff.1 listed)]
      · exact ⟨[], fun span labels found => absurd ⟨span, labels, found⟩ known⟩

/-- Without a cycle of unary rules, the derivations of a node and the analyses of its tuple over
its span go together one for one, and the count is their number, as far as numbers go. -/
theorem derivations_correspond {span : Span} {labels : Labels} {id : NodeId}
    (found : (p.parse sentence).chart.find? span labels = some id) :
    ∃ (analyses : List Analysis) (ds : List Derivation),
      analyses.Nodup ∧ (∀ a, a ∈ analyses ↔ a.Of p tables sentence span labels) ∧
      ds.Nodup ∧ (∀ d, d ∈ ds ↔ d.Of (p.parse sentence).graph id) ∧
      List.Forall₂ (Analysis.Matches p tables sentence) analyses ds ∧
      (∀ limit, 1 ≤ limit → (p.parse sentence).graph.derivations false id limit =
        .ok (ds.take limit)) ∧
      (p.parse sentence).graph.derivationCount id = .ok (min analyses.length countLimit) := by
  obtain ⟨fills, filled⟩ := p.parse_filled sentence
  have indexed := p.graph_indexed sentence
  have acyclic := p.graph_acyclic sentence
  have known := filled.wellFormed.lt_size found
  obtain ⟨paired, holds⟩ := exists_paired h noncyclic indexed acyclic id
  have pairs := holds span labels found
  refine ⟨paired.map (·.1), paired.map (·.2), pairs.nodup, fun a => pairs.mem_iff, ?_, ?_, ?_, ?_,
    ?_⟩
  · rw [pairs.derivations]
    exact Graph.nodup_unfold indexed acyclic id
  · intro d
    rw [pairs.derivations]
    exact Graph.mem_unfold indexed acyclic
  · rw [List.forall₂_map_left_iff, List.forall₂_map_right_iff, List.forall₂_same]
    exact pairs.matched
  · intro limit positive
    rw [pairs.derivations, ← Graph.limited_eq_take indexed acyclic positive known]
    exact (Graph.derivations_cases indexed acyclic false known limit).resolve_right
      fun stopped => Bool.noConfusion stopped.1
  · have length : (paired.map (·.1)).length = (Graph.unfold indexed acyclic id).length := by
      rw [← pairs.derivations, List.length_map, List.length_map]
    rw [length]
    exact Graph.derivationCount_eq indexed acyclic known

end Whole

/-- A pair of nouns has four analyses, since each noun has two. -/
theorem derivations_correspond_nouns : nounParser.LoadedFrom [nounTable] ∧
    (∀ labels, ¬ TransGen (UnaryOver [nounTable]) labels labels) ∧
    (nounParser.parse [1, 1]).chart.find? ⟨0, 2⟩ nounParser.rootLabels = some 2 ∧
    ∃ analyses : List Analysis, analyses.length = 4 ∧ analyses.Nodup ∧
      ∀ a, a ∈ analyses ↔ a.Of nounParser [nounTable] [1, 1] ⟨0, 2⟩ nounParser.rootLabels := by
  have found : (nounParser.parse [1, 1]).chart.find? ⟨0, 2⟩ nounParser.rootLabels = some 2 := by
    decide +kernel
  obtain ⟨analyses, ds, distinct, listed, -, -, -, -, counted⟩ :=
    derivations_correspond nounParser_loadedFrom nounTable_noncyclic found
  have four : ((nounParser.parse [1, 1]).graph.derivationCount 2).toOption = some 4 := by
    decide +kernel
  rw [counted] at four
  have length : min analyses.length countLimit = 4 := Option.some.inj four
  have large : 4 < countLimit := by decide
  exact ⟨nounParser_loadedFrom, nounTable_noncyclic, found, analyses, by omega, distinct, listed⟩

end LoadedFrom

end Parser

end PackedForest
