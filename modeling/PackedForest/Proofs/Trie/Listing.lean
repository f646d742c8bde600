import PackedForest.Proofs.Related
import PackedForest.Trie

/-!
# What a trie holds

The listing of a trie pairs every rule with the path to the node where it ends. Adding rules at
the end of a path adds just these to the listing, whatever branches are there already; so the
trie of some entries lists the rules of the entries, each behind its own path.

No two branches of a node share their step, which makes the node at the end of a path unique.
-/

namespace PackedForest.Trie

/-- The rules of a set, none if there is no set. -/
def rulesOf (set : Option RuleSet) : List Rule := (set.map (·.rules)).getD []

mutual

/-- Every rule with the path to the node where it ends. -/
def listing : Trie → List (List Step × Rule)
  | node _ set branches => (rulesOf set).map ([], ·) ++ listingBelow branches

def listingBelow : List (Step × Trie) → List (List Step × Rule)
  | [] => []
  | (step, child) :: branches =>
    child.listing.map (fun x => (step :: x.1, x.2)) ++ listingBelow branches

end

mutual

/-- Below every node the branches have different steps. -/
def Distinct : Trie → Prop
  | node _ _ branches => (branches.map (·.1)).Nodup ∧ DistinctBelow branches

def DistinctBelow : List (Step × Trie) → Prop
  | [] => True
  | (_, child) :: branches => child.Distinct ∧ DistinctBelow branches

end

theorem listing_eq (t : Trie) :
    t.listing = t.rules.map ([], ·) ++ listingBelow t.branches := by
  cases t
  rw [listing]
  rfl

theorem distinct_iff {t : Trie} :
    t.Distinct ↔ (t.branches.map (·.1)).Nodup ∧ DistinctBelow t.branches := by
  cases t
  rw [Distinct]
  rfl

theorem listingBelow_eq_flatMap (branches : List (Step × Trie)) :
    listingBelow branches =
      branches.flatMap fun b => b.2.listing.map fun x => (b.1 :: x.1, x.2) := by
  induction branches with
  | nil => rw [listingBelow]; rfl
  | cons b branches ih => rw [listingBelow, ih, List.flatMap_cons]

theorem distinctBelow_iff {branches : List (Step × Trie)} :
    DistinctBelow branches ↔ ∀ b ∈ branches, b.2.Distinct := by
  induction branches with
  | nil => simp [DistinctBelow]
  | cons b branches ih => simp [DistinctBelow, ih]

section SetBranch

variable {step : Step} {child : Trie}

/-- What a subtrie holds beyond the one whose place it takes, the branches hold beyond what they
did. -/
theorem flatMap_setBranch {β : Type} {f : Step × Trie → List β} {branches : List (Step × Trie)}
    {more : List β} (grown : (f (step, child)).Perm
      (((branches.lookup step).map fun old => f (step, old)).getD [] ++ more)) :
    ((setBranch step child branches).flatMap f).Perm (branches.flatMap f ++ more) := by
  induction branches with
  | nil =>
      rw [setBranch, List.flatMap_singleton, List.flatMap_nil]
      exact grown
  | cons b branches ih =>
      obtain ⟨other, old⟩ := b
      rw [setBranch]
      by_cases here : step = other
      · subst here
        rw [if_pos rfl, List.flatMap_cons, List.flatMap_cons]
        rw [List.lookup_cons_self, Option.map_some, Option.getD_some] at grown
        refine (grown.append_right _).trans ?_
        rw [List.append_assoc, List.append_assoc]
        exact List.perm_append_comm.append_left _
      · rw [List.lookup_cons, beq_eq_false_iff_ne.2 here] at grown
        rw [if_neg here, List.flatMap_cons, List.flatMap_cons, List.append_assoc]
        exact (ih grown).append_left _

theorem listingBelow_setBranch {branches : List (Step × Trie)} {more : List (List Step × Rule)}
    (grown : child.listing.Perm
      (((branches.lookup step).map listing).getD [] ++ more)) :
    (listingBelow (setBranch step child branches)).Perm
      (listingBelow branches ++ more.map fun x => (step :: x.1, x.2)) := by
  rw [listingBelow_eq_flatMap, listingBelow_eq_flatMap]
  refine flatMap_setBranch ((grown.map fun x => (step :: x.1, x.2)).trans (.of_eq ?_))
  rw [List.map_append]
  cases branches.lookup step <;> rfl

theorem map_fst_setBranch (branches : List (Step × Trie)) :
    (setBranch step child branches).map (·.1) =
      if step ∈ branches.map (·.1) then branches.map (·.1) else branches.map (·.1) ++ [step] := by
  induction branches with
  | nil => simp [setBranch]
  | cons b branches ih =>
      rw [setBranch]
      by_cases here : step = b.1
      · simp [here]
      · simp only [here, if_false, List.map_cons, ih, List.mem_cons, false_or]
        split <;> simp

theorem nodup_map_fst_setBranch {branches : List (Step × Trie)}
    (apart : (branches.map (·.1)).Nodup) :
    ((setBranch step child branches).map (·.1)).Nodup := by
  rw [map_fst_setBranch]
  split
  · exact apart
  · next new =>
      refine List.nodup_append.2 ⟨apart, List.nodup_cons.2 ⟨List.not_mem_nil, .nil⟩, ?_⟩
      rintro a old b last rfl
      exact new (List.mem_singleton.1 last ▸ old)

theorem mem_setBranch {branches : List (Step × Trie)} {b : Step × Trie}
    (member : b ∈ setBranch step child branches) : b = (step, child) ∨ b ∈ branches := by
  induction branches with
  | nil => exact .inl (List.mem_singleton.1 member)
  | cons c branches ih =>
      rw [setBranch] at member
      split at member
      · exact (List.mem_cons.1 member).imp_right (List.mem_cons_of_mem _)
      · rcases List.mem_cons.1 member with rfl | later
        · exact .inr List.mem_cons_self
        · exact (ih later).imp_right (List.mem_cons_of_mem _)

end SetBranch

theorem mem_of_child? {t child : Trie} {step : Step} (found : t.child? step = some child) :
    (step, child) ∈ t.branches := mem_of_lookup found

theorem rulesOf_addRules (rules : List Rule) (set : Option RuleSet) (supply : Supply) :
    rulesOf ((addRules rules set).run supply).1 = rulesOf set ++ rules := by
  cases set with
  | some set => rfl
  | none =>
      rw [addRules]
      cases rules <;> rfl

theorem listing_fresh (supply : Supply) :
    (fresh.run supply).1.listing = [] ∧ (fresh.run supply).1.Distinct := by
  constructor
  · change (node supply.nodes none []).listing = []
    simp [listing, listingBelow, rulesOf]
  · change (node supply.nodes none []).Distinct
    simp [Distinct, DistinctBelow]

/-- The rules go to the branch that is there, or to a new one that lists nothing yet. -/
theorem add_cons (rules : List Rule) (step : Step) (path : List Step) {t : Trie}
    (distinct : t.Distinct) (supply : Supply) :
    ∃ (child : Trie) (supply' : Supply), ((t.add rules (step :: path)).run supply).1 =
        node t.number t.ruleSet (setBranch step ((child.add rules path).run supply').1 t.branches) ∧
      child.listing = ((t.branches.lookup step).map listing).getD [] ∧ child.Distinct := by
  cases found : t.child? step with
  | some child =>
      refine ⟨child, supply, ?_, ?_, ?_⟩
      · rw [add, found]
        rfl
      · rw [child?] at found
        rw [found]
        rfl
      · exact distinctBelow_iff.1 (distinct_iff.1 distinct).2 _ (mem_of_child? found)
  | none =>
      refine ⟨(fresh.run supply).1, (fresh.run supply).2, ?_, ?_, ?_⟩
      · rw [add, found]
        rfl
      · rw [child?] at found
        rw [found]
        exact (listing_fresh supply).1
      · exact (listing_fresh supply).2

/-- Adding rules keeps the steps apart, and adds to the listing what was added to the trie. -/
theorem add_spec (rules : List Rule) (path : List Step) {t : Trie} (distinct : t.Distinct)
    (supply : Supply) :
    ((t.add rules path).run supply).1.Distinct ∧
      ((t.add rules path).run supply).1.listing.Perm (t.listing ++ rules.map (path, ·)) := by
  induction path generalizing t supply with
  | nil =>
      have result : ((t.add rules []).run supply).1 =
          node t.number ((addRules rules t.ruleSet).run supply).1 t.branches := rfl
      have added := rulesOf_addRules rules t.ruleSet supply
      rw [result]
      refine ⟨distinct_iff.2 (distinct_iff.1 distinct :), ?_⟩
      rw [listing_eq t, listing, added, List.map_append, List.append_assoc, List.append_assoc]
      exact List.perm_append_comm.append_left _
  | cons step path ih =>
      obtain ⟨apart, below⟩ := distinct_iff.1 distinct
      obtain ⟨child, supply', result, old, child_distinct⟩ :=
        add_cons rules step path distinct supply
      obtain ⟨distinct', grown⟩ := ih child_distinct supply'
      rw [result]
      constructor
      · refine distinct_iff.2 ⟨?_, distinctBelow_iff.2 fun b member => ?_⟩
        · exact nodup_map_fst_setBranch apart
        · rcases mem_setBranch member with rfl | old_branch
          · exact distinct'
          · exact distinctBelow_iff.1 below b old_branch
      · rw [old] at grown
        have branches := listingBelow_setBranch grown
        rw [List.map_map] at branches
        rw [listing_eq t, listing, List.append_assoc]
        exact branches.append_left _

/-- The rules of some entries, each behind its path. -/
def entryListing (entries : List (List Step × List Rule)) : List (List Step × Rule) :=
  entries.flatMap fun entry => entry.2.map (entry.1, ·)

theorem foldlM_add_spec (entries : List (List Step × List Rule)) {t : Trie}
    (distinct : t.Distinct) (supply : Supply) :
    ((entries.foldlM (fun (t : Trie) entry => t.add entry.2 entry.1) t).run supply).1.Distinct ∧
      ((entries.foldlM (fun (t : Trie) entry => t.add entry.2 entry.1) t).run supply).1.listing.Perm
        (t.listing ++ entryListing entries) := by
  induction entries generalizing t supply with
  | nil =>
      refine ⟨distinct, .of_eq ?_⟩
      exact (List.append_nil _).symm
  | cons entry entries ih =>
      obtain ⟨distinct', added⟩ := add_spec entry.2 entry.1 distinct supply
      obtain ⟨last, rest⟩ := ih distinct' ((t.add entry.2 entry.1).run supply).2
      refine ⟨last, rest.trans ?_⟩
      have first : entryListing (entry :: entries) =
          entry.2.map (entry.1, ·) ++ entryListing entries := List.flatMap_cons
      rw [first, ← List.append_assoc]
      exact added.append_right _

theorem ofEntries_spec (entries : List (List Step × List Rule)) :
    (ofEntries entries).Distinct ∧ (ofEntries entries).listing.Perm (entryListing entries) := by
  have empty : (node 0 none []).listing = [] := by simp [listing, listingBelow, rulesOf]
  have result := foldlM_add_spec entries (t := node 0 none []) (by simp [Distinct, DistinctBelow])
    ⟨1, 0⟩
  rw [empty] at result
  exact result

end PackedForest.Trie
