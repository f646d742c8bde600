import PackedForest.Grammar
import PackedForest.Proofs.Trie.Listing

/-!
# From a rule table to its trie

Rules are first inserted into a tree whose branches are kept in order. The order makes the
branch of a hop unique, so an insertion adds one rule to the tree and hides none.
The tree is then frozen, and since the hops of a path spell that path, the trie lists
exactly the rules of the table that are not unary, each behind the path of its source side.
-/

namespace PackedForest

instance : Std.TransOrd Labels := inferInstanceAs (Std.TransCmp (compareOn Labels.toList))

namespace Hop

instance : Std.TransCmp order where
  eq_swap {a b} := by
    cases a <;> cases b
    case run.run => exact @Std.OrientedCmp.eq_swap (List WordId) compare _ _ _
    case gap.gap => exact @Std.OrientedCmp.eq_swap Labels compare _ _ _
    all_goals rfl
  isLE_trans {a b c} first second := by
    cases a <;> cases b <;> cases c <;> try rfl
    case run.run.run => exact @Std.TransCmp.isLE_trans (List WordId) compare _ _ _ _ first second
    case gap.gap.gap => exact @Std.TransCmp.isLE_trans Labels compare _ _ _ _ first second
    case run.gap.run => cases second
    case gap.run.run => cases first
    case gap.run.gap => cases first
    case gap.gap.run => cases second

theorem order_self (hop : Hop) : hop.order hop = .eq := by
  cases hop with
  | run words => exact @Std.ReflCmp.compare_self (List WordId) compare _ _
  | gap labels => exact @Std.ReflCmp.compare_self Labels compare _ _

theorem eq_of_order {a b : Hop} (same : a.order b = .eq) : a = b := by
  cases a with
  | run words =>
      cases b with
      | run words' => rw [Std.LawfulEqOrd.eq_of_compare same]
      | gap _ => cases same
  | gap labels =>
      cases b with
      | run _ => cases same
      | gap labels' =>
          have lists : labels.toList = labels'.toList := Std.LawfulEqOrd.eq_of_compare same
          rw [Labels.toList_injective lists]

end Hop

namespace RuleTree

mutual

/-- Below every node the branches come in increasing order. -/
def Sorted : RuleTree → Prop
  | node _ branches =>
    (branches.map (·.1)).Pairwise (fun a b => a.order b = .lt) ∧ SortedBelow branches

def SortedBelow : List (Hop × RuleTree) → Prop
  | [] => True
  | (_, child) :: branches => child.Sorted ∧ SortedBelow branches

end

theorem sorted_iff {t : RuleTree} : t.Sorted ↔
    (t.branches.map (·.1)).Pairwise (fun a b => a.order b = .lt) ∧
      ∀ b ∈ t.branches, b.2.Sorted := by
  have below : ∀ {branches}, SortedBelow branches ↔ ∀ b ∈ branches, b.2.Sorted := by
    intro branches
    induction branches with
    | nil => simp [SortedBelow]
    | cons b branches ih => simp [SortedBelow, ih]
  cases t
  rw [Sorted, below]
  rfl

/-- Every rule of the tree with the path to the node where it ends. -/
def listing (path : List Step) (t : RuleTree) : List (List Step × Rule) :=
  Trie.entryListing (t.entries path)

def listingBelow (path : List Step) (branches : List (Hop × RuleTree)) :
    List (List Step × Rule) :=
  Trie.entryListing (entriesBelow path branches)

theorem listing_eq (path : List Step) (t : RuleTree) :
    t.listing path = t.rules.map (path, ·) ++ listingBelow path t.branches := by
  cases t
  rw [listing, entries]
  rfl

theorem listingBelow_nil (path : List Step) : listingBelow path [] = [] := by
  rw [listingBelow, entriesBelow]
  rfl

theorem listingBelow_cons (path : List Step) (hop : Hop) (child : RuleTree)
    (branches : List (Hop × RuleTree)) : listingBelow path ((hop, child) :: branches) =
      child.listing (path ++ hop.steps) ++ listingBelow path branches := by
  rw [listingBelow, entriesBelow, Trie.entryListing, List.flatMap_append]
  rfl

theorem listing_empty (path : List Step) : empty.listing path = [] := by
  rw [listing_eq]
  exact listingBelow_nil path

section SetBranch

variable {hop : Hop} {child : RuleTree} {branches : List (Hop × RuleTree)}

/-- A hop that comes before all branches has none. -/
theorem lookup_eq_none (before : ∀ b ∈ branches, hop.order b.1 = .lt) :
    branches.lookup hop = none := by
  rw [List.lookup_eq_none_iff]
  intro b member
  rw [bne_iff_ne]
  rintro rfl
  have := before b member
  rw [Hop.order_self] at this
  cases this

/-- What a subtree lists beyond the one whose place it takes, the branches list beyond what they
did. -/
theorem listingBelow_setBranch {path : List Step} {more : List (List Step × Rule)}
    (sorted : (branches.map (·.1)).Pairwise fun a b => a.order b = .lt)
    (grown : (child.listing (path ++ hop.steps)).Perm
      (((branches.lookup hop).map (listing (path ++ hop.steps))).getD [] ++ more)) :
    (listingBelow path (setBranch hop child branches)).Perm
      (listingBelow path branches ++ more) := by
  induction branches with
  | nil =>
      rw [setBranch, listingBelow_cons, listingBelow_nil, List.append_nil]
      exact grown
  | cons b branches ih =>
      obtain ⟨other, old⟩ := b
      obtain ⟨least, later⟩ := List.pairwise_cons.1 sorted
      rw [setBranch]
      cases order : hop.order other with
      | lt =>
          have first : ∀ b ∈ (other, old) :: branches, hop.order b.1 = .lt := by
            intro b member
            rcases List.mem_cons.1 member with rfl | member
            · exact order
            · exact Std.TransCmp.lt_trans order (least b.1 (List.mem_map_of_mem member))
          rw [lookup_eq_none first] at grown
          dsimp only
          rw [listingBelow_cons]
          exact (grown.append_right _).trans List.perm_append_comm
      | eq =>
          cases Hop.eq_of_order order
          rw [List.lookup_cons_self] at grown
          dsimp only
          rw [listingBelow_cons, listingBelow_cons]
          refine (grown.append_right _).trans ?_
          rw [Option.map_some, Option.getD_some, List.append_assoc, List.append_assoc]
          exact List.perm_append_comm.append_left _
      | gt =>
          have skip : ((other, old) :: branches).lookup hop = branches.lookup hop := by
            rw [List.lookup_cons, beq_eq_false_iff_ne.2]
            rintro rfl
            rw [Hop.order_self] at order
            cases order
          rw [skip] at grown
          dsimp only
          rw [listingBelow_cons, listingBelow_cons, List.append_assoc]
          exact (ih later grown).append_left _

theorem mem_setBranch {b : Hop × RuleTree} (member : b ∈ setBranch hop child branches) :
    b = (hop, child) ∨ b ∈ branches := by
  induction branches with
  | nil => exact .inl (List.mem_singleton.1 member)
  | cons c branches ih =>
      rw [setBranch] at member
      split at member
      · exact List.mem_cons.1 member
      · exact (List.mem_cons.1 member).imp_right (List.mem_cons_of_mem _)
      · rcases List.mem_cons.1 member with rfl | later
        · exact .inr List.mem_cons_self
        · exact (ih later).imp_right (List.mem_cons_of_mem _)

theorem pairwise_setBranch
    (sorted : (branches.map (·.1)).Pairwise fun a b => a.order b = .lt) :
    ((setBranch hop child branches).map (·.1)).Pairwise fun a b => a.order b = .lt := by
  induction branches with
  | nil => exact List.pairwise_singleton _ _
  | cons b branches ih =>
      obtain ⟨least, later⟩ := List.pairwise_cons.1 sorted
      rw [setBranch]
      cases order : hop.order b.1 with
      | lt =>
          refine List.pairwise_cons.2 ⟨fun other member => ?_, sorted⟩
          rcases List.mem_cons.1 member with rfl | member
          · exact order
          · exact Std.TransCmp.lt_trans order (least other member)
      | eq =>
          cases Hop.eq_of_order order
          exact sorted
      | gt =>
          refine List.pairwise_cons.2 ⟨fun other member => ?_, ih later⟩
          obtain ⟨c, inside, rfl⟩ := List.mem_map.1 member
          rcases mem_setBranch inside with rfl | old
          · exact Std.OrientedCmp.gt_iff_lt.1 order
          · exact least _ (List.mem_map_of_mem old)

end SetBranch

theorem sorted_empty : empty.Sorted := sorted_iff.2 ⟨.nil, fun _ member => by cases member⟩

theorem Sorted.addRule {t : RuleTree} (sorted : t.Sorted) (rule : Rule) :
    (t.addRule rule).Sorted := sorted_iff.2 (sorted_iff.1 sorted :)

theorem Sorted.setChild {t child : RuleTree} (sorted : t.Sorted) (hop : Hop)
    (below : child.Sorted) : (t.setChild hop child).Sorted := by
  obtain ⟨increasing, old⟩ := sorted_iff.1 sorted
  refine sorted_iff.2 ⟨pairwise_setBranch increasing, fun b member => ?_⟩
  rcases mem_setBranch member with rfl | member
  · exact below
  · exact old b member

/-- An insertion keeps the order, and adds the rule behind the steps of its hops. -/
theorem insertAt_spec (rule : Rule) (hops : List Hop) {t : RuleTree} (sorted : t.Sorted)
    (path : List Step) : (t.insertAt rule hops).Sorted ∧
      ((t.insertAt rule hops).listing path).Perm
        (t.listing path ++ [(path ++ hops.flatMap Hop.steps, rule)]) := by
  induction hops generalizing t path with
  | nil =>
      refine ⟨sorted.addRule rule, ?_⟩
      rw [insertAt, listing_eq, listing_eq path t, List.append_assoc, List.flatMap_nil,
        List.append_nil]
      change ((t.rules ++ [rule]).map (path, ·) ++ listingBelow path t.branches).Perm _
      rw [List.map_append, List.append_assoc]
      exact List.perm_append_comm.append_left _
  | cons hop hops ih =>
      obtain ⟨increasing, below⟩ := sorted_iff.1 sorted
      have child_sorted : ((t.child? hop).getD empty).Sorted := by
        cases found : t.child? hop with
        | none => exact sorted_empty
        | some child => exact below (hop, child) (mem_of_lookup found)
      obtain ⟨sorted', grown⟩ := ih child_sorted (path ++ hop.steps)
      have old : ((t.child? hop).getD empty).listing (path ++ hop.steps) =
          ((t.branches.lookup hop).map (listing (path ++ hop.steps))).getD [] := by
        rw [child?]
        cases t.branches.lookup hop with
        | none => exact listing_empty _
        | some child => rfl
      rw [insertAt]
      refine ⟨sorted.setChild hop sorted', ?_⟩
      rw [old] at grown
      have branches := listingBelow_setBranch increasing grown
      rw [listing_eq, listing_eq path t, List.append_assoc, List.flatMap_cons,
        ← List.append_assoc path]
      exact branches.append_left _

theorem foldl_insert_spec (rules : List Rule) {t : RuleTree} (sorted : t.Sorted) :
    (rules.foldl insert t).Sorted ∧ ((rules.foldl insert t).listing []).Perm
      (t.listing [] ++ rules.map fun r => (r.path, r)) := by
  induction rules generalizing t with
  | nil => exact ⟨sorted, by simp⟩
  | cons rule rules ih =>
      obtain ⟨sorted', added⟩ := insertAt_spec rule (Hop.ofSteps rule.path) sorted []
      obtain ⟨last, rest⟩ := ih sorted'
      refine ⟨last, rest.trans ?_⟩
      rw [Hop.flatMap_steps_ofSteps, List.nil_append] at added
      rw [List.map_cons, List.append_cons]
      exact added.append_right _

end RuleTree

/-- The trie of a rule table lists the rules that are not unary, each behind its path. -/
theorem Grammar.trie_ofRules (rules : List Rule) : (ofRules rules).trie.Distinct ∧
    (ofRules rules).trie.listing.Perm
      ((rules.filter (!·.isUnary)).map fun r => (r.path, r)) := by
  obtain ⟨distinct, frozen⟩ := Trie.ofEntries_spec ((tree rules).entries [])
  refine ⟨distinct, frozen.trans ?_⟩
  have inserted :=
    (RuleTree.foldl_insert_spec (rules.filter (!·.isUnary)) RuleTree.sorted_empty).2
  rw [RuleTree.listing_empty] at inserted
  exact inserted

end PackedForest
