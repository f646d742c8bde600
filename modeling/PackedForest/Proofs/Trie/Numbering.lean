import PackedForest.Proofs.Trie.Index

/-!
# Tries by numbers

A trie can be laid out flat, as a table of rows. The row of a node tells its branches by the
numbers of the nodes that they lead to, and its rule set by its number. In a trie that was built
from entries every number that a row mentions is that of a row or of a set: nodes take their
numbers one after the other, as sets do, so each stands at its place (`Trie.Arranged`).
-/

namespace PackedForest.Trie

/-- A node by the numbers of what it leads to. -/
structure Row where
  ruleSet : Option Nat
  words : List (WordId × Nat)
  gaps : List (Labels × Nat)

def row (t : Trie) : Row where
  ruleSet := t.ruleSet.map (·.number)
  words := t.wordBranches.map fun (id, child) => (id, child.number)
  gaps := t.gapBranches.map fun (labels, child) => (labels, child.number)

/-- The nodes in the order of their numbers. -/
def rows (t : Trie) : List Row := (t.nodes.mergeSort fun a b => a.number ≤ b.number).map row

/-- The rows and the rule sets stand at their numbers. -/
structure Arranged (t : Trie) : Prop where
  root : t.number = 0
  distinct : t.Distinct
  row : ∀ u ∈ t.nodes, t.rows[u.number]? = some u.row
  rules : ∀ u ∈ t.nodes, ∀ set, u.ruleSet = some set → t.ruleSets[set.number]? = some set.rules

/-! ### The numbers of the nodes -/

def nodeNumbers (t : Trie) : List Nat := t.nodes.map number

theorem nodeNumbers_eq (t : Trie) :
    t.nodeNumbers = t.number :: t.branches.flatMap fun b => b.2.nodeNumbers := by
  rw [nodeNumbers, nodes_eq, List.map_cons, List.map_flatMap]
  rfl

theorem number_foldlM_add (entries : List (List Step × List Rule)) (t : Trie) (supply : Supply) :
    ((entries.foldlM (fun (t : Trie) e => t.add e.2 e.1) t).run supply).1.number = t.number := by
  induction entries generalizing t supply with
  | nil => rfl
  | cons entry entries ih =>
      have here : ((t.add entry.2 entry.1).run supply).1.number = t.number := by
        cases entry.1 with
        | nil => rfl
        | cons step path =>
            obtain ⟨_, _, -, -, result⟩ := run_add_cons entry.2 step path t supply
            rw [result]
            rfl
      exact (ih _ _).trans here

theorem addRules_nodes (rules : List Rule) (set : Option RuleSet) (supply : Supply) :
    ((addRules rules set).run supply).2.nodes = supply.nodes := by
  cases set with
  | some set => rfl
  | none => cases rules <;> rfl

/-- A node that is opened takes the next number. -/
theorem nodeNumbers_add (rules : List Rule) (path : List Step) (t : Trie) (supply : Supply) :
    ∃ opened, ((t.add rules path).run supply).2.nodes = supply.nodes + opened ∧
      ((t.add rules path).run supply).1.nodeNumbers.Perm
        (t.nodeNumbers ++ List.range' supply.nodes opened) := by
  induction path generalizing t supply with
  | nil =>
      refine ⟨0, addRules_nodes rules t.ruleSet supply, .of_eq ?_⟩
      rw [List.range'_zero, List.append_nil, nodeNumbers_eq, nodeNumbers_eq t]
      rfl
  | cons step path ih =>
      obtain ⟨child, supply', -, old, result⟩ := run_add_cons rules step path t supply
      obtain ⟨opened, count, grown⟩ := ih child supply'
      have more : ∃ more, supply'.nodes + opened = supply.nodes + more ∧
          ((child.add rules path).run supply').1.nodeNumbers.Perm
            (((t.branches.lookup step).map nodeNumbers).getD [] ++
              List.range' supply.nodes more) := by
        rcases old with ⟨found, same⟩ | ⟨none_found, rfl, next⟩
        · rw [same] at grown
          rw [same, found]
          exact ⟨opened, rfl, grown⟩
        · have alone : (node supply.nodes none []).nodeNumbers = [supply.nodes] :=
            nodeNumbers_eq _
          rw [alone, next] at grown
          rw [next, none_found]
          refine ⟨opened + 1, by omega, ?_⟩
          rw [List.range'_succ]
          exact grown
      obtain ⟨more, count', grown⟩ := more
      rw [result]
      refine ⟨more, count.trans count', ?_⟩
      rw [nodeNumbers_eq, nodeNumbers_eq t, List.cons_append]
      exact (flatMap_setBranch (f := fun b => b.2.nodeNumbers) grown).cons _

theorem nodeNumbers_foldlM_add (entries : List (List Step × List Rule)) {t : Trie}
    {supply : Supply} (numbered : t.nodeNumbers.Perm (List.range supply.nodes)) : ∃ count,
    ((entries.foldlM (fun (t : Trie) e => t.add e.2 e.1) t).run supply).1.nodeNumbers.Perm
      (List.range count) := by
  induction entries generalizing t supply with
  | nil => exact ⟨_, numbered⟩
  | cons entry entries ih =>
      obtain ⟨opened, count, grown⟩ := nodeNumbers_add entry.2 entry.1 t supply
      have still_numbered : ((t.add entry.2 entry.1).run supply).1.nodeNumbers.Perm
          (List.range ((t.add entry.2 entry.1).run supply).2.nodes) := by
        rw [count]
        refine (grown.trans (numbered.append_right _)).trans (.of_eq ?_)
        rw [List.range_eq_range', List.range_eq_range']
        simpa using List.range'_append_1 (s := 0) (m := supply.nodes) (n := opened)
      exact ih still_numbered

theorem ofEntries_arranged (entries : List (List Step × List Rule)) :
    (ofEntries entries).Arranged := by
  obtain ⟨supply, holds⟩ := Holds.ofEntries entries
  have root : (node 0 none []).nodeNumbers.Perm (List.range (⟨1, 0⟩ : Supply).nodes) :=
    .of_eq (nodeNumbers_eq _)
  obtain ⟨count, numbered⟩ :
      ∃ count, (ofEntries entries).nodeNumbers.Perm (List.range count) :=
    nodeNumbers_foldlM_add entries root
  refine ⟨number_foldlM_add entries _ _, holds.distinct, fun u member => ?_,
    fun u member set here => ?_⟩
  · rw [rows, List.getElem?_map, (getElem?_mergeSort numbered).2 ⟨member, rfl⟩]
    rfl
  · rw [ruleSets_eq, List.getElem?_map, (getElem?_numberedSets holds.numbered).2
      ⟨List.mem_filterMap.2 ⟨u, member, here⟩, rfl⟩]
    rfl

/-! ### Branches by numbers -/

theorem mem_nodes_self (t : Trie) : t ∈ t.nodes := by
  rw [nodes_eq]
  exact List.mem_cons_self

theorem mem_nodes_of_branch {t u : Trie} (inside : u ∈ t.nodes) {b : Step × Trie}
    (branch : b ∈ u.branches) : b.2 ∈ t.nodes := by
  induction t using branchInduction with
  | above t ih =>
      rw [nodes_eq, List.mem_cons, List.mem_flatMap] at inside ⊢
      rcases inside with rfl | ⟨c, listed, below⟩
      · exact .inr ⟨b, branch, mem_nodes_self _⟩
      · exact .inr ⟨c, listed, ih c listed below⟩

/-- Looking a word up in the row of a node gives the number of the branch. -/
theorem Distinct.lookup_words {u : Trie} (distinct : u.Distinct) (word : WordId) :
    u.row.words.lookup word = (u.child? (.word word)).map number := by
  cases found : u.row.words.lookup word with
  | some n =>
      obtain ⟨⟨id, child⟩, listed, same⟩ := List.mem_map.1 (mem_of_lookup found)
      cases same
      rw [child?, lookup_of_mem (distinct_iff.1 distinct).1 (mem_wordBranches.1 listed)]
      rfl
  | none =>
      cases branch : u.child? (.word word) with
      | none => rfl
      | some child =>
          have listed := mem_wordBranches.2 (mem_of_child? branch)
          have other := List.lookup_eq_none_iff.1 found _ (List.mem_map_of_mem listed)
          exact absurd rfl (bne_iff_ne.1 other)

end PackedForest.Trie
