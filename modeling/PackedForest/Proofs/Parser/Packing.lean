import Mathlib.Data.List.Perm.Basic
import PackedForest.Proofs.Forest.Keys
import PackedForest.Proofs.Parser.Acyclic
import PackedForest.Proofs.Parser.Choices

/-!
# The edges of a node

The edges that build a node are those of the choices for its tuple over its span, each choice with
one edge, unless unary rules lead from a tuple back to itself (`Parser.LoadedFrom.exists_chosen`).
Such rules are held back where they would close a cycle; without one, no unary rule is.
-/

namespace PackedForest

open Reachability (Leads reaches reaches_eq_true_iff)
open Relation (ReflTransGen TransGen)

/-- A unary rule of some table leads from one tuple to another. -/
def UnaryOver (tables : List RuleTable) (below above : Labels) : Prop :=
  ∃ t ∈ tables, ∃ r ∈ t.rules, r.isUnary = true ∧ r.slots[0]? = some below ∧ r.head = above

/-- The unary rule for nouns leads away from pairs, and no rule leads back. -/
theorem nounTable_noncyclic (labels : Labels) :
    ¬ TransGen (UnaryOver [nounTable]) labels labels := by
  have unary_rules : ∀ r ∈ nounRules, r.isUnary = true →
      r.slots[0]? = some nounParser.rootLabels ∧ r.head ≠ nounParser.rootLabels := by
    decide +kernel
  have only : ∀ {below above}, UnaryOver [nounTable] below above →
      below = nounParser.rootLabels ∧ above ≠ nounParser.rootLabels := by
    rintro below above ⟨t, table, r, stored, single, slot, rfl⟩
    obtain rfl := List.mem_singleton.1 table
    obtain ⟨tail, head⟩ := unary_rules r stored single
    rw [tail] at slot
    exact ⟨(Option.some.inj slot).symm, head⟩
  intro cycle
  obtain ⟨above, first, -⟩ := TransGen.head'_iff.1 cycle
  obtain ⟨below, -, last⟩ := TransGen.tail'_iff.1 cycle
  exact (only last).2 (only first).1

namespace Parser.Filled

variable {p : Parser} {sentence : List WordId} {fills : List Fill}

/-- Of what is placed on all spans, the part under one key. -/
theorem placed_filter (h : p.Filled sentence fills) {x : Fill} (member : x ∈ fills)
    (labels : Labels) :
    (fills.flatMap Fill.placed).filter (fun y => y.1 = x.span ∧ y.2.rule.head = labels) =
      x.placed.filter fun y => y.2.rule.head = labels := by
  rw [List.filter_flatMap]
  refine (List.flatMap_congr fun y _ => ?_).trans (h.flatMap_span member
    fun y => y.placed.filter fun y => y.2.rule.head = labels)
  split
  · next here =>
      refine List.filter_congr fun z placed => decide_eq_decide.2 ?_
      exact and_iff_right ((y.span_of_placed placed).trans here)
  · next elsewhere =>
      refine List.filter_eq_nil_iff.2 fun z placed => ?_
      rw [decide_eq_true_iff, y.span_of_placed placed]
      exact fun same => elsewhere same.1

/-- The edges of a node are those of the applications under its tuple. -/
theorem edgesOf (h : p.Filled sentence fills) {x : Fill} (member : x ∈ fills) {labels : Labels}
    {id : NodeId} (found : (p.parse sentence).chart.find? x.span labels = some id) :
    ((p.parse sentence).graph.edgesOf id).map Edge.unnumbered =
      ((x.found ++ x.uses.map UnaryUse.application).filter (·.rule.head = labels)).map
        (·.edge id) := by
  have placed : x.placed.map (·.2) = x.found ++ x.uses.map UnaryUse.application := by
    rw [Fill.placed, List.map_append, List.map_map, List.map_map]
    exact congrArg (· ++ _) (List.map_id _)
  rw [← Forest.edgesUnder_of_find? found, h.grows.edgesUnder_eq (.empty sentence),
    Forest.edgesUnder_of_missing (by simp [Chart.find?]), List.nil_append,
    h.placed_filter member, ← placed, List.filter_map, List.map_map, ← List.filterMap_eq_map]
  refine List.filterMap_congr fun y listed => ?_
  obtain ⟨here, under⟩ := List.mem_filter.1 listed
  rw [Application.edgeIn?, x.span_of_placed here, of_decide_eq_true under, found]
  rfl

/-- A node comes with an edge. -/
theorem edgesOf_ne_nil (h : p.Filled sentence fills) {span : Span} {labels : Labels} {id : NodeId}
    (found : (p.parse sentence).chart.find? span labels = some id) :
    (p.parse sentence).graph.edgesOf id ≠ [] := by
  rcases h.grows.isSome_iff.1 (by rw [found]; rfl) with old | ⟨y, placed, rfl, rfl⟩
  · simp [Chart.find?] at old
  · obtain ⟨x, member, placed⟩ := List.mem_flatMap.1 placed
    have here := x.span_of_placed placed
    intro none
    have edges := h.edgesOf member (here ▸ found)
    rw [none, List.map_nil, eq_comm, List.map_eq_nil_iff, List.filter_eq_nil_iff] at edges
    refine edges y.2 ?_ (decide_eq_true rfl)
    rcases List.mem_append.1 placed with walk | unary
    · obtain ⟨a, applied, rfl⟩ := List.mem_map.1 walk
      exact List.mem_append_left _ applied
    · obtain ⟨u, used, rfl⟩ := List.mem_map.1 unary
      exact List.mem_append_right _ (List.mem_map_of_mem used)

end Parser.Filled

/-- A rearrangement of what comes of some entries comes of the entries rearranged. -/
theorem exists_perm_of_map {α β : Type} {f : α → β} {bs : List β} {as : List α}
    (perm : bs.Perm (as.map f)) : ∃ as' : List α, as'.Perm as ∧ as'.map f = bs := by
  have lifted : Relation.Comp (fun bs as => bs = as.map f) List.Perm bs as := by
    rw [List.eq_map_comp_perm]
    exact perm
  obtain ⟨as', same, perm⟩ := lifted
  exact ⟨as', perm, same.symm⟩

namespace Parser

/-- Choices and the edges that they make: those of a node, one for each choice for its tuple. -/
structure Chosen (p : Parser) (tables : List RuleTable) (sentence : List WordId) (span : Span)
    (labels : Labels) (id : NodeId) (chosen : List ((Choice × Application) × Edge)) : Prop where
  edges : chosen.map (·.2) = (p.parse sentence).graph.edgesOf id
  nodup : (chosen.map (·.1.1)).Nodup
  made : ∀ y ∈ chosen, y.2.unnumbered = y.1.2.edge id
  mem_iff : ∀ {c : Choice} {a : Application}, (c, a) ∈ chosen.map (·.1) ↔ a.rule.head = labels ∧
    ∃ keys, c.Applies p tables sentence span a.rule a.keepSourceText keys ∧
      (p.parse sentence).chart.Finds keys a.tails

namespace Chosen

variable {p : Parser} {tables : List RuleTable} {sentence : List WordId} {span : Span}
  {labels : Labels} {id : NodeId} {chosen : List ((Choice × Application) × Edge)}
  (h : Chosen p tables sentence span labels id chosen) {y : (Choice × Application) × Edge}
  (member : y ∈ chosen)

include h member

theorem tails_eq : y.2.tails = y.1.2.tails := congrArg EdgeRecord.tails (h.made y member)

/-- The choice of an edge applies, and the tails are the nodes of the keys that it leaves. -/
theorem exists_keys : y.1.2.rule.head = labels ∧ ∃ keys,
    y.1.1.Applies p tables sentence span y.1.2.rule y.1.2.keepSourceText keys ∧
    (p.parse sentence).chart.Finds keys y.2.tails := by
  rw [h.tails_eq member]
  exact h.mem_iff.1 (List.mem_map_of_mem member)

end Chosen

end Parser

namespace Parser.LoadedFrom

variable {p : Parser} {tables : List RuleTable} {sentence : List WordId} {fills : List Fill}

section Open

variable (h : p.LoadedFrom tables)
  (noncyclic : ∀ labels, ¬ TransGen (UnaryOver tables) labels labels)
  (filled : p.Filled sentence fills) {x : Fill} (member : x ∈ fills)

include h noncyclic filled member

/-- Without a cycle of unary rules, each of them is used on a span that has its tail. -/
theorem uses_perm : x.uses.Perm (tables.flatMap fun t =>
    t.grammar.unaries.filterMap (unaryUse? (p.parse sentence).chart x.span t.grammar)) := by
  refine (filled.uses_perm member fun labels cycle => noncyclic labels ?_).trans (.of_eq ?_)
  · exact TransGen.mono (fun _ _ step => h.rewrites_iff.1 step) _ _ cycle
  · rw [h.grammars, List.flatMap_map]

/-- What is applied on a span comes of the choices there, each once. -/
theorem placed_perm : (x.found ++ x.uses.map UnaryUse.application).Perm
    ((p.choices tables sentence (p.parse sentence).chart x.span).map (·.2)) := by
  rw [p.map_snd_choices]
  have found := h.found_perm (filled.span_mem member) (p.parse sentence).chart
  rw [← (filled.sound x member).found] at found
  refine found.append ?_
  refine ((uses_perm h noncyclic filled member).map _).trans (.of_eq ?_)
  rw [List.map_flatMap]

end Open

/-- The edges of a node are those of the choices for its tuple. -/
theorem exists_chosen (h : p.LoadedFrom tables)
    (noncyclic : ∀ labels, ¬ TransGen (UnaryOver tables) labels labels)
    {span : Span} {labels : Labels} {id : NodeId}
    (found : (p.parse sentence).chart.find? span labels = some id) :
    ∃ chosen, Chosen p tables sentence span labels id chosen := by
  obtain ⟨fills, filled⟩ := p.parse_filled sentence
  obtain ⟨x, member, rfl⟩ := filled.exists_fill (filled.span_of_found (by rw [found]; rfl))
  have perm := (placed_perm h noncyclic filled member).filter (·.rule.head = labels)
  rw [List.filter_map] at perm
  obtain ⟨listed, rearranged, made⟩ := exists_perm_of_map perm
  have edges := filled.edgesOf member found
  rw [← made, List.map_map] at edges
  have made_of : List.Forall₂ (fun (y : Choice × Application) e => e.unnumbered = y.2.edge id)
      listed ((p.parse sentence).graph.edgesOf id) := by
    have same : List.Forall₂ (fun r s => s = r) (listed.map fun y => y.2.edge id)
        (((p.parse sentence).graph.edgesOf id).map Edge.unnumbered) := by
      rw [edges]
      exact List.forall₂_same.2 fun _ _ => rfl
    exact List.forall₂_map_left_iff.1 (List.forall₂_map_right_iff.1 same)
  obtain ⟨length, made_of⟩ := List.forall₂_iff_zip.1 made_of
  have firsts : (listed.zip ((p.parse sentence).graph.edgesOf id)).map (·.1) = listed :=
    List.map_fst_zip (Nat.le_of_eq length)
  refine ⟨listed.zip ((p.parse sentence).graph.edgesOf id), ?_, ?_, fun y pair => ?_, ?_⟩
  · exact List.map_snd_zip (Nat.le_of_eq length.symm)
  · have choices := congrArg (List.map Prod.fst) firsts
    rw [List.map_map] at choices
    refine choices ▸ (rearranged.map _).nodup_iff.2 ?_
    exact (p.nodup_choices tables sentence _ x.span).sublist (List.filter_sublist.map _)
  · exact made_of pair
  · intro c a
    rw [firsts, rearranged.mem_iff, List.mem_filter, and_comm, Function.comp_apply,
      decide_eq_true_iff]
    refine and_congr_right fun under => ?_
    exact h.mem_choices (by rw [under, found]; rfl)

end Parser.LoadedFrom

end PackedForest
