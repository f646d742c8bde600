import PackedForest.Proofs.Parser.Loading
import PackedForest.Proofs.Trie.Hops
import PackedForest.Proofs.Trie.Index

/-!
# The index of a grammar

The rules of a table that are not unary go to the trie of its grammar, by way of a tree of hops.
Nothing is lost on the way and nothing comes in: the trie indexes exactly these rules, each behind
the path that its source side spells, and a rule set keeps the order of the table. The unary rules
are kept apart.
-/

namespace PackedForest

namespace Grammar

variable (rules : List Rule)

theorem tree_eq : tree rules = (rules.filter (!·.isUnary)).foldl RuleTree.insert .empty := rfl

theorem tree_sorted : (tree rules).Sorted :=
  (RuleTree.foldl_insert_spec _ RuleTree.sorted_empty).1

/-- The rules behind the longest runs of a path are those with this path. -/
theorem tree_rulesAt (hops : List Hop) : (tree rules).rulesAt hops =
    (rules.filter (!·.isUnary)).filter fun r => hops = Hop.ofSteps r.path := by
  rw [tree_eq, RuleTree.rulesAt_foldl_insert, RuleTree.rulesAt_empty, List.nil_append]

theorem tree_entries_rules (path : List Step) :
    (((tree rules).entries []).flatMap fun e => if path = e.1 then e.2 else []) =
      (rules.filter (!·.isUnary)).filter (·.path = path) := by
  rw [RuleTree.entries_rules (tree_sorted rules), tree_rulesAt]
  · refine List.filter_congr fun r _ => decide_eq_decide.2 ⟨fun same => ?_, fun same => ?_⟩
    · rw [← Hop.flatMap_steps_ofSteps path, same, Hop.flatMap_steps_ofSteps]
    · rw [same]
  · intro hops some_rule
    rw [tree_rulesAt] at some_rule
    obtain ⟨r, member⟩ := List.exists_mem_of_ne_nil _ some_rule
    have same := of_decide_eq_true (List.mem_filter.1 member).2
    rw [same, Hop.flatMap_steps_ofSteps]

/-- The entries lead along the paths of the rules and no further. -/
theorem tree_entries_reach (path : List Step) :
    (path = [] ∨ ∃ e ∈ (tree rules).entries [], path <+: e.1) ↔
      path = [] ∨ ∃ r ∈ rules.filter (!·.isUnary), path <+: r.path := by
  have reached : ∀ hops, ((tree rules).find? hops).isSome ↔
      hops = [] ∨ ∃ r ∈ rules.filter (!·.isUnary), hops <+: Hop.ofSteps r.path := by
    intro hops
    rw [tree_eq, RuleTree.isSome_find?_foldl_insert]
    cases hops with
    | nil => simp [RuleTree.find?_nil]
    | cons hop hops => simp [RuleTree.find?_cons, RuleTree.empty, RuleTree.branches]
  refine or_congr_right' fun nonempty => ?_
  rw [RuleTree.entries_eq]
  constructor
  · rintro ⟨e, listed, before⟩
    obtain ⟨⟨hops, found_rules⟩, located, rfl⟩ := List.mem_map.1 listed
    obtain ⟨u, found, -⟩ := (RuleTree.mem_located (tree_sorted rules)).1 located
    rw [List.nil_append] at before
    rcases (reached hops).1 (by rw [found]; rfl) with rfl | ⟨r, member, longer⟩
    · exact absurd (List.prefix_nil.1 before) nonempty
    · obtain ⟨more, split⟩ := longer
      refine ⟨r, member, before.trans ⟨more.flatMap Hop.steps, ?_⟩⟩
      rw [← List.flatMap_append, split, Hop.flatMap_steps_ofSteps]
  · rintro ⟨r, member, before⟩
    obtain ⟨u, found⟩ := Option.isSome_iff_exists.1
      ((reached (Hop.ofSteps r.path)).2 (.inr ⟨r, member, List.prefix_refl _⟩))
    refine ⟨_, List.mem_map_of_mem
      ((RuleTree.mem_located (tree_sorted rules)).2 ⟨u, found, rfl⟩), ?_⟩
    rwa [List.nil_append, Hop.flatMap_steps_ofSteps]

theorem trie_indexes : (ofRules rules).trie.Indexes (rules.filter (!·.isUnary)) := by
  obtain ⟨supply, holds⟩ := Trie.Holds.ofEntries ((tree rules).entries [])
  refine .of_holds holds (tree_entries_reach rules) (tree_entries_rules rules) ?_
  have listed := (trie_ofRules rules).2.map (·.2)
  rw [List.map_map] at listed
  exact listed.trans (.of_eq (List.map_id _))

end Grammar

/-- The path of a rule that was read has a step for each symbol. -/
theorem Rule.WellFormed.map_path {r : Rule} (h : r.WellFormed) :
    r.path.map some = r.source.map r.step? := by
  have stored : ∀ symbol ∈ r.source, (r.step? symbol).isSome := by
    intro symbol member
    cases symbol with
    | word id => rfl
    | slot slot =>
        have inside : slot ∈ List.range r.slots.length := by
          rw [← h.slots_eq]
          exact List.mem_filterMap.2 ⟨_, member, rfl⟩
        rw [Rule.step?, List.getElem?_eq_getElem (List.mem_range.1 inside)]
        rfl
  rw [Rule.path, List.map_filterMap]
  rw [← List.filterMap_eq_map]
  refine List.filterMap_congr fun symbol member => ?_
  obtain ⟨step, found⟩ := Option.isSome_iff_exists.1 (stored symbol member)
  rw [Function.comp_apply, found]
  rfl

/-- The trie of some rules that were read indexes those that are not unary, each behind the path
that has one step for every symbol of its source side. The unary rules are in no set, and no rule
is lost. -/
theorem Grammar.ofRules_indexes {rules : List Rule} (read : ∀ r ∈ rules, r.IsRead) :
    (∀ r ∈ rules, r.path.map some = r.source.map r.step?) ∧
    (ofRules rules).trie.Indexes (rules.filter (!·.isUnary)) ∧
    (ofRules rules).unaries = rules.filter (·.isUnary) ∧
    (∀ r ∈ (ofRules rules).unaries, ∀ set ∈ (ofRules rules).trie.ruleSets, r ∉ set) ∧
    (ofRules rules).ruleCount = rules.length := by
  have indexed := trie_indexes rules
  refine ⟨fun r member => (read r member).wellFormed.map_path, indexed, rfl, ?_, ?_⟩
  · intro r unary set listed inside
    have kept := indexed.ruleSets_perm.subset (List.mem_flatten.2 ⟨set, listed, inside⟩)
    have single := (List.mem_filter.1 unary).2
    have several := (List.mem_filter.1 kept).2
    rw [single] at several
    cases several
  · rw [ruleCount, indexed.ruleSets_perm.length_eq, Nat.add_comm]
    exact (List.length_eq_length_filter_add Rule.isUnary).symm

/-- The index of the nouns holds all four rules, one of them apart from the trie. -/
theorem Grammar.ofRules_indexes_nouns : (∀ r ∈ nounRules, r.IsRead) ∧
    (Grammar.ofRules nounRules).ruleCount = 4 ∧ (Grammar.ofRules nounRules).unaries.length = 1 := by
  have read := nounTable_isRead.rules_isRead
  exact ⟨read, (ofRules_indexes read).2.2.2.2.trans (by decide +kernel),
    (congrArg List.length (ofRules_indexes read).2.2.1).trans (by decide +kernel)⟩

end PackedForest
