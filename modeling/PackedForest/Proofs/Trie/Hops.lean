import Mathlib.Data.List.Nodup
import PackedForest.Proofs.Trie.Freezing
import PackedForest.Proofs.Trie.Lookup

/-!
# Looking up hops in a rule tree

The nodes of a rule tree go by the hops that lead to them. An insertion opens the nodes along the
hops of its rule and puts the rule last at the end of these.

The hops of a rule are the longest runs of its path, so of all hops that spell a path only these
have rules behind them. What the entries of the tree give a path is therefore the list of the rules
inserted with this path, in order (`RuleTree.entries_rules`).
-/

namespace PackedForest.RuleTree

/-- What holds of a node once it holds of the nodes one hop further holds of every node. -/
theorem branchInduction {P : RuleTree → Prop}
    (above : ∀ t : RuleTree, (∀ b ∈ t.branches, P b.2) → P t) (t : RuleTree) : P t :=
  above t fun b member =>
    have : sizeOf b.2 < sizeOf t := by
      have inside := List.sizeOf_lt_of_mem member
      have stored : sizeOf t.branches < sizeOf t := by
        cases t
        simp only [branches, node.sizeOf_spec]
        omega
      have second : sizeOf b.2 < sizeOf b := by
        cases b
        simp only [Prod.mk.sizeOf_spec]
        omega
      omega
    branchInduction above b.2
termination_by sizeOf t

/-- The node behind some hops. -/
def find? : RuleTree → List Hop → Option RuleTree
  | t, [] => some t
  | t, hop :: hops => (t.child? hop).bind fun child => child.find? hops

/-- The rules that end behind some hops. -/
def rulesAt (t : RuleTree) (hops : List Hop) : List Rule := ((t.find? hops).map rules).getD []

theorem find?_nil (t : RuleTree) : t.find? [] = some t := by rw [find?]

theorem find?_cons (t : RuleTree) (hop : Hop) (hops : List Hop) :
    t.find? (hop :: hops) = (t.branches.lookup hop).bind (·.find? hops) := by
  rw [find?, child?]

theorem rulesAt_cons (t : RuleTree) (hop : Hop) (hops : List Hop) :
    t.rulesAt (hop :: hops) = ((t.branches.lookup hop).map (·.rulesAt hops)).getD [] := by
  rw [rulesAt, find?_cons]
  cases t.branches.lookup hop <;> rfl

theorem rulesAt_empty (hops : List Hop) : empty.rulesAt hops = [] := by
  cases hops with
  | nil => rfl
  | cons hop hops => rfl

theorem lookup_setBranch (hop other : Hop) (child : RuleTree) (branches : List (Hop × RuleTree)) :
    (setBranch hop child branches).lookup other =
      if other = hop then some child else branches.lookup other := by
  induction branches with
  | nil =>
      by_cases same : other = hop
      · simp [setBranch, same]
      · simp [setBranch, same, List.lookup_cons, beq_eq_false_iff_ne.2 same]
  | cons b branches ih =>
      obtain ⟨first, old⟩ := b
      rw [setBranch]
      cases order : hop.order first with
      | lt =>
          dsimp only
          rw [List.lookup_cons]
          by_cases same : other = hop
          · simp [same]
          · rw [if_neg same, beq_eq_false_iff_ne.2 same]
      | eq =>
          cases Hop.eq_of_order order
          dsimp only
          rw [List.lookup_cons, List.lookup_cons]
          by_cases same : other = hop
          · simp [same]
          · rw [if_neg same, beq_eq_false_iff_ne.2 same]
      | gt =>
          have apart : first ≠ hop := by
            rintro rfl
            rw [Hop.order_self] at order
            cases order
          dsimp only
          rw [List.lookup_cons, List.lookup_cons, ih]
          by_cases same : other = first
          · simp [same, apart]
          · rw [beq_eq_false_iff_ne.2 same]

section Insert

variable (rule : Rule)

/-- A node is there if it was, or if the hops lead through it. -/
theorem isSome_find?_insertAt (hops : List Hop) {t : RuleTree} (s : List Hop) :
    ((t.insertAt rule hops).find? s).isSome ↔ (t.find? s).isSome ∨ s <+: hops := by
  induction hops generalizing t s with
  | nil =>
      rw [List.prefix_nil, insertAt]
      cases s with
      | nil => simp [find?_nil]
      | cons hop s =>
          have same : (t.addRule rule).branches = t.branches := rfl
          simp [find?_cons, same]
  | cons hop hops ih =>
      rw [insertAt]
      cases s with
      | nil => simp [find?_nil]
      | cons other s =>
          rw [find?_cons, find?_cons, setChild, branches, lookup_setBranch, List.cons_prefix_cons]
          by_cases here : other = hop
          · subst here
            rw [if_pos rfl, Option.bind_some, ih, child?]
            cases t.branches.lookup other with
            | some child => simp
            | none =>
                cases s with
                | nil => simp [find?_nil]
                | cons next s => simp [find?_cons, empty, branches]
          · simp [here]

/-- The rule comes last at the end of its hops, and all other nodes keep their rules. -/
theorem rulesAt_insertAt (hops : List Hop) (t : RuleTree) (s : List Hop) :
    (t.insertAt rule hops).rulesAt s = t.rulesAt s ++ if s = hops then [rule] else [] := by
  induction hops generalizing t s with
  | nil =>
      rw [insertAt]
      cases s with
      | nil => rfl
      | cons hop s =>
          have same : (t.addRule rule).branches = t.branches := rfl
          simp [rulesAt_cons, same]
  | cons hop hops ih =>
      rw [insertAt]
      cases s with
      | nil => simp [rulesAt, find?_nil, setChild, rules]
      | cons other s =>
          rw [rulesAt_cons, rulesAt_cons, setChild, branches, lookup_setBranch]
          by_cases here : other = hop
          · subst here
            rw [if_pos rfl, Option.map_some, Option.getD_some, ih, child?]
            cases t.branches.lookup other with
            | some child => simp
            | none => simp [rulesAt_empty]
          · simp [here]

end Insert

section Insertions

variable (rules : List Rule) (t : RuleTree) (s : List Hop)

theorem isSome_find?_foldl_insert : ((rules.foldl insert t).find? s).isSome ↔
    (t.find? s).isSome ∨ ∃ r ∈ rules, s <+: Hop.ofSteps r.path := by
  induction rules generalizing t with
  | nil => simp
  | cons rule rules ih =>
      rw [List.foldl_cons, ih, insert, isSome_find?_insertAt]
      simp [or_assoc]

theorem rulesAt_foldl_insert : (rules.foldl insert t).rulesAt s =
    t.rulesAt s ++ rules.filter fun r => s = Hop.ofSteps r.path := by
  induction rules generalizing t with
  | nil => simp
  | cons rule rules ih =>
      rw [List.foldl_cons, ih, insert, rulesAt_insertAt, List.append_assoc, List.filter_cons]
      by_cases here : s = Hop.ofSteps rule.path <;> simp [here]

end Insertions

mutual

/-- Every node with the hops that lead to it and the rules that end there. -/
def located : RuleTree → List (List Hop × List Rule)
  | node rules branches => ([], rules) :: locatedBelow branches

def locatedBelow : List (Hop × RuleTree) → List (List Hop × List Rule)
  | [] => []
  | (hop, child) :: branches =>
    child.located.map (fun x => (hop :: x.1, x.2)) ++ locatedBelow branches

end

theorem located_eq (t : RuleTree) : t.located =
    ([], t.rules) :: t.branches.flatMap fun b => b.2.located.map fun x => (b.1 :: x.1, x.2) := by
  have below : ∀ branches : List (Hop × RuleTree), locatedBelow branches =
      branches.flatMap fun b => b.2.located.map fun x => (b.1 :: x.1, x.2) := by
    intro branches
    induction branches with
    | nil => rw [locatedBelow]; rfl
    | cons b branches ih => rw [locatedBelow, ih, List.flatMap_cons]
  cases t
  rw [located, below]
  rfl

theorem entriesBelow_eq_flatMap (path : List Step) (branches : List (Hop × RuleTree)) :
    entriesBelow path branches =
      branches.flatMap fun b => b.2.entries (path ++ b.1.steps) := by
  induction branches with
  | nil => rw [entriesBelow]; rfl
  | cons b branches ih => rw [entriesBelow, ih, List.flatMap_cons]

/-- The path of an entry is spelled by the hops that lead to it. -/
theorem entries_eq (t : RuleTree) (path : List Step) :
    t.entries path = t.located.map fun x => (path ++ x.1.flatMap Hop.steps, x.2) := by
  induction t using branchInduction generalizing path with
  | above t ih =>
      have start : t.entries path = (path, t.rules) :: entriesBelow path t.branches := by
        cases t
        rw [entries]
        rfl
      rw [start, located_eq, List.map_cons, entriesBelow_eq_flatMap, List.map_flatMap]
      congr 1
      · simp
      · refine List.flatMap_congr fun b member => ?_
        rw [ih b member, List.map_map]
        simp [Function.comp_def]

section Sorted

variable {t : RuleTree}

theorem Sorted.nodup_branches (sorted : t.Sorted) : (t.branches.map (·.1)).Nodup :=
  (sorted_iff.1 sorted).1.imp fun {a b} before same => by
    rw [same, Hop.order_self] at before
    cases before

theorem mem_located (sorted : t.Sorted) {hops : List Hop} {rules : List Rule} :
    (hops, rules) ∈ t.located ↔ ∃ u, t.find? hops = some u ∧ u.rules = rules := by
  induction t using branchInduction generalizing hops with
  | above t ih =>
      have apart := sorted.nodup_branches
      rw [located_eq, List.mem_cons, List.mem_flatMap]
      cases hops with
      | nil => simp [find?_nil, eq_comm]
      | cons hop hops =>
          simp only [Prod.mk.injEq, reduceCtorEq, false_and, false_or, List.mem_map,
            List.cons.injEq, find?_cons, Option.bind_eq_some_iff]
          constructor
          · rintro ⟨b, member, x, listed, ⟨rfl, rfl⟩, rfl⟩
            obtain ⟨u, found, rules⟩ :=
              (ih b member ((sorted_iff.1 sorted).2 b member)).1 listed
            exact ⟨u, ⟨b.2, lookup_of_mem apart member, found⟩, rules⟩
          · rintro ⟨u, ⟨child, branch, found⟩, rfl⟩
            have member : (hop, child) ∈ t.branches := mem_of_lookup branch
            refine ⟨_, member, (hops, u.rules), ?_, ⟨rfl, rfl⟩, rfl⟩
            exact (ih _ member ((sorted_iff.1 sorted).2 _ member)).2 ⟨u, found, rfl⟩

theorem nodup_located (sorted : t.Sorted) : (t.located.map (·.1)).Nodup := by
  induction t using branchInduction with
  | above t ih =>
      have apart := sorted.nodup_branches
      rw [located_eq, List.map_cons, List.map_flatMap, List.nodup_cons, List.nodup_flatMap]
      refine ⟨by simp, fun b member => ?_, ?_⟩
      · have below := ih b member ((sorted_iff.1 sorted).2 b member)
        have longer := below.map (f := fun hops => b.1 :: hops)
          fun _ _ same => (List.cons.inj same).2
        simpa only [List.map_map, Function.comp_def] using longer
      · refine (List.pairwise_map.1 apart).imp fun {b c} other => ?_
        intro hops left right
        simp only [List.map_map, List.mem_map, Function.comp_apply] at left right
        obtain ⟨_, -, rfl⟩ := left
        obtain ⟨_, -, same⟩ := right
        exact other (List.cons.inj same).1.symm

end Sorted

/-- Of several lists under different keys, the one under a given key. -/
theorem flatMap_of_key {α β : Type} [DecidableEq α] [BEq α] [LawfulBEq α]
    {entries : List (α × List β)} (apart : (entries.map (·.1)).Nodup) (key : α) :
    (entries.flatMap fun x => if x.1 = key then x.2 else []) = (entries.lookup key).getD [] := by
  induction entries with
  | nil => rfl
  | cons entry entries ih =>
      obtain ⟨first, values⟩ := entry
      obtain ⟨new, later⟩ := List.nodup_cons.1 apart
      rw [List.flatMap_cons, List.lookup_cons]
      by_cases here : first = key
      · subst here
        have none_later :
            (entries.flatMap fun x => if x.1 = first then x.2 else []) = [] := by
          refine List.flatMap_eq_nil_iff.2 fun x member => if_neg ?_
          rintro rfl
          exact new (List.mem_map.2 ⟨x, member, rfl⟩)
        simp [none_later]
      · rw [if_neg here, beq_eq_false_iff_ne.2 (Ne.symm here), List.nil_append]
        exact ih later

/-- Where rules only stand behind longest runs, the entries with a path hold the rules behind
its longest runs. -/
theorem entries_rules {t : RuleTree} (sorted : t.Sorted)
    (longest : ∀ hops, t.rulesAt hops ≠ [] → hops = Hop.ofSteps (hops.flatMap Hop.steps))
    (path : List Step) :
    ((t.entries []).flatMap fun e => if path = e.1 then e.2 else []) =
      t.rulesAt (Hop.ofSteps path) := by
  have by_hops : ∀ x ∈ t.located, (if path = [] ++ x.1.flatMap Hop.steps then x.2 else []) =
      if x.1 = Hop.ofSteps path then x.2 else [] := by
    rintro ⟨hops, rules⟩ member
    obtain ⟨u, found, rfl⟩ := (mem_located sorted).1 member
    have stored : t.rulesAt hops = u.rules := by rw [rulesAt, found]; rfl
    by_cases none_here : u.rules = []
    · simp [none_here]
    · have canonical := longest hops (stored ▸ none_here)
      have same : path = hops.flatMap Hop.steps ↔ hops = Hop.ofSteps path := by
        constructor
        · rintro rfl
          exact canonical
        · intro spelled
          rw [spelled, Hop.flatMap_steps_ofSteps]
      simp only [List.nil_append, same]
  have lookup : (t.located.lookup (Hop.ofSteps path)).getD [] = t.rulesAt (Hop.ofSteps path) := by
    rw [rulesAt]
    cases found : t.find? (Hop.ofSteps path) with
    | some u =>
        rw [lookup_of_mem (nodup_located sorted) ((mem_located sorted).2 ⟨u, found, rfl⟩)]
        rfl
    | none =>
        have missing : t.located.lookup (Hop.ofSteps path) = none := by
          rw [List.lookup_eq_none_iff]
          rintro ⟨hops, rules⟩ member
          rw [bne_iff_ne]
          rintro rfl
          obtain ⟨u, there, -⟩ := (mem_located sorted).1 member
          rw [found] at there
          cases there
        rw [missing]
        rfl
  rw [entries_eq, List.flatMap_map, List.flatMap_congr by_hops,
    flatMap_of_key (nodup_located sorted), lookup]

end PackedForest.RuleTree
