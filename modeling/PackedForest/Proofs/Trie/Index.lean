import Mathlib.Data.List.Nodup
import Mathlib.Logic.ExistsUnique
import PackedForest.Proofs.Trie.Lookup

/-!
# Tries as indices

A trie indexes rules by their paths. Its branches lead along a path exactly if the path begins
that of some rule, and the rule set behind a path holds the rules with this path in their order
(`Trie.Indexes`). The sets are numbered, and a rule is in the set of its path only.
-/

namespace PackedForest

namespace Trie

/-- The branches that are listed at the nodes lead along a path. -/
inductive Follows : Trie → List Step → Trie → Prop
  | nil (t : Trie) : Follows t [] t
  | word {t child u : Trie} {id : WordId} {path : List Step}
      (branch : (id, child) ∈ t.wordBranches) (rest : Follows child path u) :
      Follows t (.word id :: path) u
  | gap {t child u : Trie} {labels : Labels} {path : List Step}
      (branch : (labels, child) ∈ t.gapBranches) (rest : Follows child path u) :
      Follows t (.gap labels :: path) u

theorem mem_wordBranches {t child : Trie} {id : WordId} :
    (id, child) ∈ t.wordBranches ↔ (.word id, child) ∈ t.branches := by
  rw [wordBranches, List.mem_mergeSort, List.mem_filterMap]
  constructor
  · rintro ⟨⟨step, other⟩, member, kept⟩
    cases step with
    | word => cases kept; exact member
    | gap => cases kept
  · exact fun member => ⟨_, member, rfl⟩

theorem mem_gapBranches {t child : Trie} {labels : Labels} :
    (labels, child) ∈ t.gapBranches ↔ (.gap labels, child) ∈ t.branches := by
  rw [gapBranches, List.mem_filterMap]
  constructor
  · rintro ⟨⟨step, other⟩, member, kept⟩
    cases step with
    | word => cases kept
    | gap => cases kept; exact member
  · exact fun member => ⟨_, member, rfl⟩

theorem Distinct.below {t : Trie} (distinct : t.Distinct) {b : Step × Trie}
    (member : b ∈ t.branches) : b.2.Distinct :=
  distinctBelow_iff.1 (distinct_iff.1 distinct).2 b member

/-- Each step has one branch at most, so the branches lead to where the look-up does. -/
theorem follows_iff_find? {t : Trie} (distinct : t.Distinct) {path : List Step} {u : Trie} :
    t.Follows path u ↔ t.find? path = some u := by
  induction path generalizing t with
  | nil =>
      rw [find?_nil, Option.some_inj]
      constructor
      · rintro ⟨⟩
        rfl
      · rintro rfl
        exact .nil t
  | cons step path ih =>
      rw [find?_cons, Option.bind_eq_some_iff]
      constructor
      · intro follows
        obtain ⟨child, member, rest⟩ :
            ∃ child, (step, child) ∈ t.branches ∧ child.Follows path u := by
          cases follows with
          | word branch rest => exact ⟨_, mem_wordBranches.1 branch, rest⟩
          | gap branch rest => exact ⟨_, mem_gapBranches.1 branch, rest⟩
        exact ⟨child, lookup_of_mem (distinct_iff.1 distinct).1 member,
          (ih (distinct.below member)).1 rest⟩
      · rintro ⟨child, branch, found⟩
        have member : (step, child) ∈ t.branches := mem_of_child? branch
        have rest := (ih (distinct.below member)).2 found
        cases step with
        | word id => exact .word (mem_wordBranches.2 member) rest
        | gap labels => exact .gap (mem_gapBranches.2 member) rest

theorem nodes_eq (t : Trie) : t.nodes = t :: t.branches.flatMap fun b => b.2.nodes := by
  have below : ∀ branches : List (Step × Trie),
      nodesBelow branches = branches.flatMap fun b => b.2.nodes := by
    intro branches
    induction branches with
    | nil => rw [nodesBelow]; rfl
    | cons b branches ih => rw [nodesBelow, ih, List.flatMap_cons]
  cases t
  rw [nodes, below]
  rfl

theorem mem_nodes_iff {t : Trie} (distinct : t.Distinct) {u : Trie} :
    u ∈ t.nodes ↔ ∃ path, t.find? path = some u := by
  induction t using branchInduction with
  | above t ih =>
      rw [nodes_eq, List.mem_cons, List.mem_flatMap]
      constructor
      · rintro (rfl | ⟨⟨step, child⟩, member, inside⟩)
        · exact ⟨[], find?_nil _⟩
        · obtain ⟨path, found⟩ := (ih _ member (distinct.below member)).1 inside
          refine ⟨step :: path, ?_⟩
          rw [find?_cons, lookup_of_mem (distinct_iff.1 distinct).1 member]
          exact found
      · rintro ⟨path, found⟩
        cases path with
        | nil => exact .inl (Option.some.inj found).symm
        | cons step path =>
            rw [find?_cons, Option.bind_eq_some_iff] at found
            obtain ⟨child, branch, found⟩ := found
            have member : (step, child) ∈ t.branches := mem_of_child? branch
            exact .inr ⟨_, member, (ih _ member (distinct.below member)).2 ⟨path, found⟩⟩

theorem Distinct.of_mem_nodes {t u : Trie} (distinct : t.Distinct) (inside : u ∈ t.nodes) :
    u.Distinct := by
  induction t using branchInduction with
  | above t ih =>
      rw [nodes_eq, List.mem_cons, List.mem_flatMap] at inside
      rcases inside with rfl | ⟨c, listed, below⟩
      · exact distinct
      · exact ih c listed (distinct.below listed) below

/-- The listing goes through the nodes in their order. -/
theorem map_snd_listing (t : Trie) : t.listing.map (·.2) = t.nodes.flatMap rules := by
  induction t using branchInduction with
  | above t ih =>
      rw [listing_eq, nodes_eq, List.flatMap_cons, List.map_append, List.map_map,
        listingBelow_eq_flatMap, List.map_flatMap, List.flatMap_assoc]
      congr 1
      · exact List.map_id _
      · refine List.flatMap_congr fun b member => ?_
        rw [List.map_map]
        exact ih b member

/-- The rule sets in the order of their numbers, each with its number. -/
def numberedSets (t : Trie) : List RuleSet :=
  (t.nodes.filterMap ruleSet).mergeSort fun a b => a.number ≤ b.number

theorem ruleSets_eq (t : Trie) : t.ruleSets = t.numberedSets.map (·.rules) := rfl

/-- Where the numbers of some objects are those up to their count, each object stands at its
number once they are sorted. -/
theorem getElem?_mergeSort {α : Type} {objects : List α} {number : α → Nat} {count : Nat}
    (numbered : (objects.map number).Perm (List.range count)) {i : Nat} {a : α} :
    (objects.mergeSort fun a b => number a ≤ number b)[i]? = some a ↔
      a ∈ objects ∧ number a = i := by
  have sorted : ((objects.mergeSort fun a b => number a ≤ number b).map number).Pairwise
      (· ≤ ·) := by
    rw [List.pairwise_map]
    have order : (objects.mergeSort fun a b => number a ≤ number b).Pairwise
        fun a b => decide (number a ≤ number b) = true :=
      List.pairwise_mergeSort (fun a b c => by simpa using Nat.le_trans)
        (fun a b => by simpa using Nat.le_total ..) _
    exact order.imp of_decide_eq_true
  have numbers : (objects.mergeSort fun a b => number a ≤ number b).map number =
      List.range count :=
    List.Perm.eq_of_pairwise (fun _ _ _ _ => Nat.le_antisymm) sorted
      (List.pairwise_lt_range.imp Nat.le_of_lt)
      (((List.mergeSort_perm _ _).map _).trans numbered)
  have place : ∀ {i : Nat} {a : α},
      (objects.mergeSort fun a b => number a ≤ number b)[i]? = some a → number a = i := by
    intro i a here
    have at_place : (List.range count)[i]? = some (number a) := by
      rw [← numbers, List.getElem?_map, here]
      rfl
    obtain ⟨inside, same⟩ := List.getElem?_eq_some_iff.1 at_place
    rw [← same, List.getElem_range]
  constructor
  · intro here
    exact ⟨List.mem_mergeSort.1 (List.mem_of_getElem? here), place here⟩
  · rintro ⟨member, rfl⟩
    obtain ⟨i, here⟩ := List.mem_iff_getElem?.1 (List.mem_mergeSort.2 member)
    rwa [place here]

theorem getElem?_numberedSets {t : Trie} {count : Nat}
    (numbered : t.setNumbers.Perm (List.range count)) {i : Nat} {set : RuleSet} :
    t.numberedSets[i]? = some set ↔ set ∈ t.nodes.filterMap ruleSet ∧ set.number = i :=
  getElem?_mergeSort numbered

theorem mem_sets_iff {t : Trie} (distinct : t.Distinct) {set : RuleSet} :
    set ∈ t.nodes.filterMap ruleSet ↔ ∃ path u, t.find? path = some u ∧ u.ruleSet = some set := by
  rw [List.mem_filterMap]
  simp only [mem_nodes_iff distinct, exists_and_right, exists_comm (α := List Step)]

/-- The sets together hold what is listed. -/
theorem flatten_ruleSets_perm (t : Trie) : t.ruleSets.flatten.Perm (t.listing.map (·.2)) := by
  have in_sets : ∀ nodes : List Trie,
      nodes.flatMap Trie.rules = ((nodes.filterMap ruleSet).map (·.rules)).flatten := by
    intro nodes
    induction nodes with
    | nil => rfl
    | cons u nodes ih =>
        rw [List.flatMap_cons, ih, List.filterMap_cons, Trie.rules]
        cases u.ruleSet <;> rfl
  rw [map_snd_listing, in_sets, ruleSets_eq]
  exact ((List.mergeSort_perm _ _).map _).flatten

namespace Holds

variable {t : Trie} {supply : Supply} {entries : List (List Step × List Rule)}
  (h : t.Holds supply entries) {path : List Step} {u : Trie} {set : RuleSet}
  (found : t.find? path = some u)

include h found

theorem set_rules (here : u.ruleSet = some set) :
    set.rules = entries.flatMap fun e => if path = e.1 then e.2 else [] := by
  rw [← h.rules_eq, setAt, found, Option.bind_some, here]
  rfl

theorem getElem?_numberedSets (here : u.ruleSet = some set) :
    t.numberedSets[set.number]? = some set :=
  (Trie.getElem?_numberedSets h.numbered).2
    ⟨(mem_sets_iff h.distinct).2 ⟨path, u, found, here⟩, rfl⟩

/-- The set of a node stands at its number, with the rules of the entries that end there. -/
theorem getElem?_ruleSets (here : u.ruleSet = some set) : t.ruleSets[set.number]? =
    some (entries.flatMap fun e => if path = e.1 then e.2 else []) := by
  rw [ruleSets_eq, List.getElem?_map, h.getElem?_numberedSets found here,
    ← h.set_rules found here]
  rfl

/-- There is no set where no rules end. -/
theorem ruleSet_eq_none_iff : u.ruleSet = none ↔
    (entries.flatMap fun e => if path = e.1 then e.2 else []) = [] := by
  constructor
  · intro none_here
    rw [← h.rules_eq, setAt, found, Option.bind_some, none_here]
    rfl
  · intro none_here
    rw [Option.eq_none_iff_forall_ne_some]
    intro set here
    refine h.filled path set (by rw [setAt, found]; exact here) ?_
    rw [h.set_rules found here, none_here]

end Holds

/-- The trie holds these rules, each behind its path, in their order. -/
structure Indexes (t : Trie) (rules : List Rule) : Prop where
  /-- Following the branches of the nodes and looking a path up come to the same node. -/
  follows_iff : ∀ {path u}, t.Follows path u ↔ t.find? path = some u
  isSome_find?_iff : ∀ path, (t.find? path).isSome ↔ path = [] ∨ ∃ r ∈ rules, path <+: r.path
  ruleSet_eq_none_iff : ∀ {path u}, t.find? path = some u →
    (u.ruleSet = none ↔ ∀ r ∈ rules, r.path ≠ path)
  rules_of_ruleSet : ∀ {path u set}, t.find? path = some u → u.ruleSet = some set →
    t.ruleSets[set.number]? = some (rules.filter (·.path = path))
  hasPrefix_iff : ∀ words, t.hasPrefix words = true ↔
    words = [] ∨ ∃ r ∈ rules, words.map .word <+: r.path
  ruleSets_perm : t.ruleSets.flatten.Perm rules
  existsUnique_ruleSet : ∀ r ∈ rules, ∃! i : Nat, ∃ set : List Rule,
    t.ruleSets[i]? = some set ∧ r ∈ set

namespace Indexes

variable {t : Trie} {rules : List Rule}

/-- Entries that lead along the paths of some rules, and bring to each path the rules that have it,
make an index of these rules. -/
theorem of_holds {supply : Supply} {entries : List (List Step × List Rule)}
    (h : t.Holds supply entries)
    (reached : ∀ path, (path = [] ∨ ∃ e ∈ entries, path <+: e.1) ↔
      path = [] ∨ ∃ r ∈ rules, path <+: r.path)
    (brought : ∀ path, (entries.flatMap fun e => if path = e.1 then e.2 else []) =
      rules.filter (·.path = path))
    (listed : (t.listing.map (·.2)).Perm rules) : t.Indexes rules := by
  have open_paths := fun path => (h.isSome_iff path).trans (reached path)
  have unset : ∀ {path u}, t.find? path = some u →
      (u.ruleSet = none ↔ ∀ r ∈ rules, r.path ≠ path) := by
    intro path u found
    rw [h.ruleSet_eq_none_iff found, brought, List.filter_eq_nil_iff]
    simp only [decide_eq_true_eq, Ne]
  refine ⟨follows_iff_find? h.distinct, open_paths, unset, ?_, fun words => ?_,
    t.flatten_ruleSets_perm.trans listed, ?_⟩
  · intro path u set found here
    rw [h.getElem?_ruleSets found here, brought]
  · rw [hasPrefix, open_paths, List.map_eq_nil_iff]
  · intro r member
    obtain ⟨u, found⟩ := Option.isSome_iff_exists.1
      ((open_paths r.path).2 (.inr ⟨r, member, List.prefix_refl _⟩))
    obtain ⟨set, here⟩ := Option.ne_none_iff_exists'.1
      (mt (unset found).1 fun none_here => none_here r member rfl)
    refine ⟨set.number, ⟨_, h.getElem?_ruleSets found here, ?_⟩, ?_⟩
    · rw [brought, List.mem_filter]
      exact ⟨member, by simp⟩
    · rintro i ⟨other, at_place, inside⟩
      rw [ruleSets_eq, List.getElem?_map, Option.map_eq_some_iff] at at_place
      obtain ⟨set', at_place, rfl⟩ := at_place
      obtain ⟨known, rfl⟩ := (Trie.getElem?_numberedSets h.numbered).1 at_place
      obtain ⟨path, u', found', here'⟩ := (mem_sets_iff h.distinct).1 known
      rw [h.set_rules found' here', brought, List.mem_filter, decide_eq_true_eq] at inside
      obtain ⟨-, rfl⟩ := inside
      obtain rfl := Option.some.inj (found.symm.trans found')
      rw [Option.some.inj (here.symm.trans here')]

end Indexes

end Trie

end PackedForest
