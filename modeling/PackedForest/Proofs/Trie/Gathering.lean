import PackedForest.Proofs.Trie.Halving
import PackedForest.Proofs.Trie.Hops

/-!
# Freezing any tree

A tree that is put together by hand may have several nodes at one path: behind a long run and behind
the runs it is cut into, or behind a run without words. Freezing brings them together. The trie has
a node for each beginning of their paths, and its set behind a path holds the rules of all nodes
there (`Trie.Gathers`).

This rests on nothing but the entries of the tree. That these are its nodes, each once, is where the
order of the branches is needed, which all operations keep (`RuleTree.Made.sorted`).
-/

namespace PackedForest

namespace RuleTree

/-- The trees that are made by inserting rules, adding rules at the root, and putting trees behind
runs or gaps, in any order. -/
inductive Made : RuleTree → Prop
  | empty : Made empty
  | insert {t : RuleTree} (rule : Rule) (made : Made t) : Made (t.insert rule)
  | addRule {t : RuleTree} (rule : Rule) (made : Made t) : Made (t.addRule rule)
  | setChild {t child : RuleTree} (hop : Hop) (made : Made t) (below : Made child) :
      Made (t.setChild hop child)

theorem Made.sorted {t : RuleTree} (made : t.Made) : t.Sorted := by
  induction made with
  | empty => exact sorted_empty
  | insert rule _ ih => exact (insertAt_spec rule _ ih []).1
  | addRule rule _ ih => exact ih.addRule rule
  | setChild hop _ _ ih below => exact ih.setChild hop below

/-- The rules of all nodes whose hops spell a path, node by node. -/
def rulesBehind (t : RuleTree) (path : List Step) : List Rule :=
  t.located.flatMap fun x => if path = x.1.flatMap Hop.steps then x.2 else []

theorem rulesBehind_eq (t : RuleTree) (path : List Step) : t.rulesBehind path =
    (t.entries []).flatMap fun e => if path = e.1 then e.2 else [] := by
  rw [entries_eq, List.flatMap_map]
  rfl

theorem ruleCount_eq (t : RuleTree) : t.ruleCount = (t.located.flatMap (·.2)).length := by
  have below : ∀ branches : List (Hop × RuleTree),
      ruleCountBelow branches = (branches.map fun b => b.2.ruleCount).sum := by
    intro branches
    induction branches with
    | nil => rw [ruleCountBelow]; rfl
    | cons b branches ih => rw [ruleCountBelow, ih, List.map_cons, List.sum_cons]
  induction t using branchInduction with
  | above t ih =>
      have start : t.ruleCount = t.rules.length + ruleCountBelow t.branches := by
        cases t
        rw [ruleCount]
        rfl
      rw [start, below, located_eq, List.flatMap_cons, List.length_append, List.flatMap_assoc,
        List.length_flatMap]
      congr 2
      refine List.map_congr_left fun b member => ?_
      rw [ih b member, List.flatMap_map]

/-- A path is open where it begins that of an entry, and the entries are the nodes. -/
theorem Sorted.exists_entry_iff {t : RuleTree} (sorted : t.Sorted) (path : List Step) :
    (path = [] ∨ ∃ e ∈ t.entries [], path <+: e.1) ↔
      ∃ hops u, t.find? hops = some u ∧ path <+: hops.flatMap Hop.steps := by
  rw [entries_eq]
  constructor
  · rintro (rfl | ⟨e, listed, before⟩)
    · exact ⟨[], t, find?_nil t, List.nil_prefix⟩
    · obtain ⟨⟨hops, rules⟩, located, rfl⟩ := List.mem_map.1 listed
      obtain ⟨u, found, -⟩ := (mem_located sorted).1 located
      exact ⟨hops, u, found, before⟩
  · rintro ⟨hops, u, found, before⟩
    exact .inr ⟨_, List.mem_map_of_mem ((mem_located sorted).2 ⟨u, found, rfl⟩), before⟩

end RuleTree

/-- The trie holds what the nodes of the tree hold, each at the path that its hops spell. -/
structure Trie.Gathers (t : Trie) (tree : RuleTree) : Prop where
  /-- Following the branches of the nodes and looking a path up come to the same node. -/
  follows_iff : ∀ {path u}, t.Follows path u ↔ t.find? path = some u
  isSome_find?_iff : ∀ path, (t.find? path).isSome ↔
    ∃ hops node, tree.find? hops = some node ∧ path <+: hops.flatMap Hop.steps
  ruleSet_eq_none_iff : ∀ {path u}, t.find? path = some u →
    (u.ruleSet = none ↔ tree.rulesBehind path = [])
  rules_of_ruleSet : ∀ {path u set}, t.find? path = some u → u.ruleSet = some set →
    t.ruleSets[set.number]? = some (tree.rulesBehind path)
  increasing : ∀ u ∈ t.nodes, (u.wordBranches.map (·.1)).Pairwise (· < ·)
  /-- Halving finds the branch of each word. -/
  searchWord_iff : ∀ u ∈ t.nodes, ∀ {word child},
    u.searchWord word = some child ↔ (word, child) ∈ u.wordBranches
  ruleSets_perm : t.ruleSets.flatten.Perm (tree.located.flatMap (·.2))
  length_ruleSets : t.ruleSets.flatten.length = tree.ruleCount

/-- The rules of the sets are those of the nodes of the tree. -/
theorem Trie.flatten_ruleSets_freeze (tree : RuleTree) :
    (freeze tree).ruleSets.flatten.Perm (tree.located.flatMap (·.2)) := by
  refine (flatten_ruleSets_perm _).trans ?_
  refine ((ofEntries_spec (tree.entries [])).2.map (·.2)).trans (.of_eq ?_)
  rw [entryListing, RuleTree.entries_eq, List.flatMap_map, List.map_flatMap]
  refine List.flatMap_congr fun x _ => ?_
  rw [List.map_map]
  exact List.map_id _

/-- The nodes of a tree that was made in any way are told apart by their hops, and the trie that it
is frozen to gathers all of them. -/
theorem RuleTree.Made.gathers {tree : RuleTree} (made : tree.Made) :
    (tree.located.map (·.1)).Nodup ∧
    (∀ {hops rules}, (hops, rules) ∈ tree.located ↔
      ∃ node, tree.find? hops = some node ∧ node.rules = rules) ∧
    (Trie.freeze tree).Gathers tree := by
  have sorted := made.sorted
  obtain ⟨supply, holds⟩ := Trie.Holds.ofEntries (tree.entries [])
  refine ⟨nodup_located sorted, mem_located sorted, ?_⟩
  constructor
  case follows_iff => exact Trie.follows_iff_find? holds.distinct
  case isSome_find?_iff =>
    exact fun path => (holds.isSome_iff path).trans (sorted.exists_entry_iff path)
  case ruleSet_eq_none_iff =>
    intro path u found
    rw [rulesBehind_eq]
    exact holds.ruleSet_eq_none_iff found
  case rules_of_ruleSet =>
    intro path u set found here
    rw [rulesBehind_eq]
    exact holds.getElem?_ruleSets found here
  case increasing =>
    exact fun u inside => (holds.distinct.of_mem_nodes inside).increasing
  case searchWord_iff =>
    exact fun u inside => (holds.distinct.of_mem_nodes inside).searchWord_eq_some_iff
  case ruleSets_perm => exact Trie.flatten_ruleSets_freeze tree
  case length_ruleSets =>
    rw [(Trie.flatten_ruleSets_freeze tree).length_eq, ruleCount_eq]

/-- A rule over two words. -/
def pairRule : Rule where
  source := [.word 0, .word 1]
  targets := [[]]
  head := ⟨2, [2]⟩
  slots := []
  features := .empty
  sourceText := ""

/-- The rule behind its run, behind the two halves of the run, and behind a run without words. -/
def pairTree : RuleTree :=
  ((RuleTree.empty.insert pairRule).setChild (.run [0])
    (RuleTree.empty.setChild (.run [1]) (RuleTree.empty.addRule pairRule))).setChild (.run [])
    (RuleTree.empty.addRule pairRule)

/-- The two nodes at the path of the rule share a set, and the node without words has its rule at
the root. -/
theorem RuleTree.Made.gathers_pair : pairTree.Made ∧
    ((Trie.freeze pairTree).find? [.word 0, .word 1]).isSome ∧
    (Trie.freeze pairTree).ruleSets.flatten.length = 3 ∧
    (pairTree.rulesBehind [.word 0, .word 1]).length = 2 ∧
    (Trie.freeze pairTree).ruleSet ≠ none := by
  have alone : (RuleTree.empty.addRule pairRule).Made := .addRule _ .empty
  have made : pairTree.Made :=
    .setChild _ (.setChild _ (.insert _ .empty) (.setChild _ .empty alone)) alone
  obtain ⟨-, -, gathered⟩ := made.gathers
  refine ⟨made, ?_, gathered.length_ruleSets.trans (by decide +kernel), by decide +kernel, ?_⟩
  · exact (gathered.isSome_find?_iff _).2 ⟨[.run [0, 1]], _, rfl, List.prefix_refl _⟩
  · rw [Ne, gathered.ruleSet_eq_none_iff (Trie.find?_nil _)]
    exact ne_of_apply_ne List.length (by decide +kernel)

end PackedForest
