import PackedForest.Proofs.Trie.Listing

/-!
# Looking up paths in a trie

Adding rules at the end of a path opens the nodes along the path, puts the rules behind those
that end there already, and leaves all other nodes as they are. `Trie.Holds` is what a trie is
known to hold after some entries were added: a node for each beginning of their paths, and at
each node the rules of the entries that end there, in the order of the entries.

Rule sets take their numbers one after the other, so the numbers of all sets of a trie are those
up to their count.
-/

namespace PackedForest.Trie

/-- What holds of a node once it holds of the nodes one step further holds of every node. -/
theorem branchInduction {P : Trie → Prop}
    (above : ∀ t : Trie, (∀ b ∈ t.branches, P b.2) → P t) (t : Trie) : P t :=
  above t fun b member =>
    have : sizeOf b.2 < sizeOf t := by
      have inside := List.sizeOf_lt_of_mem member
      have stored : sizeOf t.branches < sizeOf t := by
        cases t
        simp only [branches, node.sizeOf_spec]
        omega
      have second : sizeOf b.2 < sizeOf b := by
        cases b
        simp only [Prod.mk.sizeOf_spec]
        omega
      omega
    branchInduction above b.2
termination_by sizeOf t

/-- The set of the rules that end behind a path. -/
def setAt (t : Trie) (path : List Step) : Option RuleSet := (t.find? path).bind ruleSet

theorem find?_nil (t : Trie) : t.find? [] = some t := by rw [find?]

theorem find?_cons (t : Trie) (step : Step) (path : List Step) :
    t.find? (step :: path) = (t.branches.lookup step).bind (·.find? path) := by
  rw [find?, child?]

theorem setAt_nil (t : Trie) : t.setAt [] = t.ruleSet := by
  rw [setAt, find?_nil]
  rfl

theorem setAt_cons (t : Trie) (step : Step) (path : List Step) :
    t.setAt (step :: path) = (t.branches.lookup step).bind (·.setAt path) := by
  rw [setAt, find?_cons, Option.bind_assoc]
  rfl

theorem lookup_setBranch (step other : Step) (child : Trie) (branches : List (Step × Trie)) :
    (setBranch step child branches).lookup other =
      if other = step then some child else branches.lookup other := by
  induction branches with
  | nil =>
      by_cases same : other = step
      · simp [setBranch, same]
      · simp [setBranch, same, List.lookup_cons, beq_eq_false_iff_ne.2 same]
  | cons b branches ih =>
      obtain ⟨first, old⟩ := b
      rw [setBranch]
      by_cases here : step = first
      · subst here
        rw [if_pos rfl, List.lookup_cons, List.lookup_cons]
        by_cases same : other = step
        · simp [same]
        · rw [if_neg same, beq_eq_false_iff_ne.2 same]
      · rw [if_neg here, List.lookup_cons, List.lookup_cons, ih]
        by_cases same : other = first
        · simp [same, Ne.symm here]
        · rw [beq_eq_false_iff_ne.2 same]

/-- The branch that a path goes along, which is new if there was none. -/
theorem run_add_cons (rules : List Rule) (step : Step) (path : List Step) (t : Trie)
    (supply : Supply) : ∃ (child : Trie) (supply' : Supply),
      supply'.ruleSets = supply.ruleSets ∧
      (t.branches.lookup step = some child ∧ supply'.nodes = supply.nodes ∨
        t.branches.lookup step = none ∧ child = node supply.nodes none [] ∧
          supply'.nodes = supply.nodes + 1) ∧
      (t.add rules (step :: path)).run supply =
        (node t.number t.ruleSet (setBranch step ((child.add rules path).run supply').1 t.branches),
          ((child.add rules path).run supply').2) := by
  cases found : t.child? step with
  | some child =>
      refine ⟨child, supply, rfl, .inl ⟨found, rfl⟩, ?_⟩
      rw [add, found]
      rfl
  | none =>
      refine ⟨node supply.nodes none [], (fresh.run supply).2, rfl, .inr ⟨found, rfl, rfl⟩, ?_⟩
      rw [add, found]
      rfl

section Add

variable (rules : List Rule)

/-- A node is there if it was, or if the path leads through it. -/
theorem isSome_find?_add (path : List Step) {t : Trie} (supply : Supply) (s : List Step) :
    (((t.add rules path).run supply).1.find? s).isSome ↔ (t.find? s).isSome ∨ s <+: path := by
  induction path generalizing t supply s with
  | nil =>
      rw [List.prefix_nil]
      cases s with
      | nil => simp [find?_nil]
      | cons step s =>
          have same : ((t.add rules []).run supply).1.branches = t.branches := rfl
          simp [find?_cons, same]
  | cons step path ih =>
      obtain ⟨child, supply', -, old, result⟩ := run_add_cons rules step path t supply
      rw [result]
      cases s with
      | nil => simp [find?_nil]
      | cons other s =>
          rw [find?_cons, find?_cons, branches, lookup_setBranch, List.cons_prefix_cons]
          by_cases here : other = step
          · subst here
            rw [if_pos rfl, Option.bind_some, ih]
            rcases old with ⟨found, -⟩ | ⟨none_found, rfl, -⟩
            · simp [found]
            · have empty : ((node supply.nodes none []).find? s).isSome ↔ s = [] := by
                cases s with
                | nil => simp [find?_nil]
                | cons _ _ => simp [find?_cons, branches]
              rw [none_found, empty]
              simpa using fun nil : s = [] => nil ▸ List.nil_prefix
          · simp [here]

/-- At the end of the path the rules are added to the set, and all other sets stay. -/
theorem setAt_add (path : List Step) (t : Trie) (supply : Supply) :
    ∃ supply' : Supply, supply'.ruleSets = supply.ruleSets ∧ ∀ s,
      ((t.add rules path).run supply).1.setAt s =
        if s = path then ((addRules rules (t.setAt s)).run supply').1 else t.setAt s := by
  induction path generalizing t supply with
  | nil =>
      refine ⟨supply, rfl, fun s => ?_⟩
      cases s with
      | nil =>
          rw [setAt_nil, setAt_nil, if_pos rfl]
          rfl
      | cons step s =>
          rw [setAt_cons, setAt_cons, if_neg (List.cons_ne_nil _ _)]
          rfl
  | cons step path ih =>
      obtain ⟨child, supply', sets, old, result⟩ := run_add_cons rules step path t supply
      obtain ⟨supply'', sets', added⟩ := ih child supply'
      refine ⟨supply'', sets'.trans sets, fun s => ?_⟩
      rw [result]
      cases s with
      | nil => simp [setAt_nil, ruleSet]
      | cons other s =>
          rw [setAt_cons, setAt_cons, branches, lookup_setBranch]
          by_cases here : other = step
          · subst here
            have child_set : (t.branches.lookup other).bind (·.setAt s) = child.setAt s := by
              rcases old with ⟨found, -⟩ | ⟨none_found, rfl, -⟩
              · rw [found, Option.bind_some]
              · rw [none_found, Option.bind_none]
                cases s with
                | nil => rfl
                | cons _ _ => simp [setAt_cons, branches]
            rw [if_pos rfl, Option.bind_some, added, child_set]
            simp only [List.cons.injEq, true_and]
          · simp [here]

end Add

/-- The numbers of all rule sets. -/
def setNumbers (t : Trie) : List Nat := (t.nodes.filterMap ruleSet).map (·.number)

def setNumbersBelow (branches : List (Step × Trie)) : List Nat :=
  ((nodesBelow branches).filterMap ruleSet).map (·.number)

theorem setNumbers_eq (t : Trie) :
    t.setNumbers = (t.ruleSet.map (·.number)).toList ++ setNumbersBelow t.branches := by
  obtain ⟨number, set, branches⟩ := t
  rw [setNumbers, nodes, List.filterMap_cons]
  cases set <;> rfl

theorem setNumbersBelow_eq_flatMap (branches : List (Step × Trie)) :
    setNumbersBelow branches = branches.flatMap fun b => b.2.setNumbers := by
  induction branches with
  | nil => rw [setNumbersBelow, nodesBelow]; rfl
  | cons b branches ih =>
      rw [setNumbersBelow, nodesBelow, List.filterMap_append, List.map_append, List.flatMap_cons,
        ← ih]
      rfl

/-- The sets that a subtrie has beyond those of the one whose place it takes are new below the
node, too. -/
theorem setNumbersBelow_setBranch {step : Step} {child : Trie} {branches : List (Step × Trie)}
    {more : List Nat}
    (grown : child.setNumbers.Perm (((branches.lookup step).map setNumbers).getD [] ++ more)) :
    (setNumbersBelow (setBranch step child branches)).Perm (setNumbersBelow branches ++ more) := by
  rw [setNumbersBelow_eq_flatMap, setNumbersBelow_eq_flatMap]
  exact flatMap_setBranch (f := fun b => b.2.setNumbers) grown

/-- A set that is opened takes the next number. -/
theorem setNumbers_add (rules : List Rule) (path : List Step) (t : Trie) (supply : Supply) :
    ∃ opened, ((t.add rules path).run supply).2.ruleSets = supply.ruleSets + opened ∧
      ((t.add rules path).run supply).1.setNumbers.Perm
        (t.setNumbers ++ List.range' supply.ruleSets opened) := by
  induction path generalizing t supply with
  | nil =>
      obtain ⟨number, set, branches⟩ := t
      rw [add, setNumbers_eq (node number set branches)]
      cases set with
      | some set =>
          refine ⟨0, rfl, .of_eq ?_⟩
          rw [List.range'_zero, List.append_nil]
          exact setNumbers_eq _
      | none =>
          cases rules with
          | nil =>
              refine ⟨0, rfl, .of_eq ?_⟩
              rw [List.range'_zero, List.append_nil]
              exact setNumbers_eq _
          | cons rule rules =>
              refine ⟨1, rfl, (List.Perm.of_eq (setNumbers_eq _)).trans ?_⟩
              exact List.perm_append_comm
  | cons step path ih =>
      obtain ⟨child, supply', sets, old, result⟩ := run_add_cons rules step path t supply
      obtain ⟨opened, count, grown⟩ := ih child supply'
      rw [sets] at count grown
      refine ⟨opened, by rw [result]; exact count, ?_⟩
      have child_sets : child.setNumbers =
          ((t.branches.lookup step).map setNumbers).getD [] := by
        rcases old with ⟨found, -⟩ | ⟨none_found, rfl, -⟩
        · rw [found]
          rfl
        · rw [none_found]
          simp [setNumbers_eq, ruleSet, branches, setNumbersBelow, nodesBelow]
      rw [child_sets] at grown
      rw [result, setNumbers_eq, setNumbers_eq t, List.append_assoc]
      exact (setNumbersBelow_setBranch grown).append_left _

/-- What a trie holds once some entries were added, with the numbers that are left. -/
structure Holds (t : Trie) (supply : Supply) (entries : List (List Step × List Rule)) : Prop where
  distinct : t.Distinct
  isSome_iff : ∀ s, (t.find? s).isSome ↔ s = [] ∨ ∃ e ∈ entries, s <+: e.1
  rules_eq : ∀ s, rulesOf (t.setAt s) = entries.flatMap fun e => if s = e.1 then e.2 else []
  filled : ∀ s set, t.setAt s = some set → set.rules ≠ []
  numbered : t.setNumbers.Perm (List.range supply.ruleSets)

theorem addRules_filled {rules : List Rule} {set set' : Option RuleSet} {supply : Supply}
    (added : ((addRules rules set).run supply).1 = set')
    (filled : ∀ x, set = some x → x.rules ≠ []) : ∀ x, set' = some x → x.rules ≠ [] := by
  subst added
  cases set with
  | some set =>
      intro x h
      cases h
      exact List.append_ne_nil_of_left_ne_nil (filled set rfl) _
  | none =>
      cases rules with
      | nil => exact fun x h => by cases h
      | cons rule rules =>
          intro x h
          cases h
          exact List.cons_ne_nil _ _

namespace Holds

variable {t : Trie} {supply : Supply} {entries : List (List Step × List Rule)}

theorem empty : Holds (node 0 none []) ⟨1, 0⟩ [] where
  distinct := by simp [Distinct, DistinctBelow]
  isSome_iff s := by cases s <;> simp [find?_nil, find?_cons, branches]
  rules_eq s := by cases s <;> simp [setAt_nil, setAt_cons, ruleSet, branches, rulesOf]
  filled s set h := by cases s <;> simp [setAt_nil, setAt_cons, ruleSet, branches] at h
  numbered := by simp [setNumbers_eq, ruleSet, branches, setNumbersBelow, nodesBelow]

theorem add (h : t.Holds supply entries) (entry : List Step × List Rule) :
    Holds ((t.add entry.2 entry.1).run supply).1 ((t.add entry.2 entry.1).run supply).2
      (entries ++ [entry]) := by
  obtain ⟨supply', -, sets⟩ := setAt_add entry.2 entry.1 t supply
  refine ⟨(add_spec entry.2 entry.1 h.distinct supply).1, fun s => ?_, fun s => ?_, fun s => ?_, ?_⟩
  · rw [isSome_find?_add, h.isSome_iff]
    simp [or_and_right, exists_or, or_assoc]
  · rw [sets, List.flatMap_append, List.flatMap_singleton, ← h.rules_eq]
    split
    · exact rulesOf_addRules _ _ _
    · exact (List.append_nil _).symm
  · rw [sets]
    split
    · exact addRules_filled rfl (h.filled s)
    · exact h.filled s
  · obtain ⟨opened, count, grown⟩ := setNumbers_add entry.2 entry.1 t supply
    rw [count]
    refine grown.trans ((h.numbered.append_right _).trans (.of_eq ?_))
    rw [List.range_eq_range', List.range_eq_range']
    simpa using List.range'_append_1 (s := 0) (m := supply.ruleSets) (n := opened)

theorem foldlM_add (h : t.Holds supply entries) (more : List (List Step × List Rule)) :
    ∃ supply', Holds ((more.foldlM (fun (t : Trie) e => t.add e.2 e.1) t).run supply).1 supply'
      (entries ++ more) := by
  induction more generalizing t supply entries with
  | nil =>
      rw [List.append_nil]
      exact ⟨supply, h⟩
  | cons entry more ih =>
      have later := ih (h.add entry)
      rw [List.append_assoc] at later
      exact later

theorem ofEntries (entries : List (List Step × List Rule)) :
    ∃ supply, Holds (ofEntries entries) supply entries := empty.foldlM_add entries

end Holds

end PackedForest.Trie
