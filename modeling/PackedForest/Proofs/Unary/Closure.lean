import PackedForest.Proofs.Related
import PackedForest.Unary

/-!
# Closures of unary rules

Two facts about a closure carry the worklist. A tail is either the start or the head of a step
that comes before (`chained_closure`), so no step is reached too early. And every rule over the
start itself that builds another tuple is among the steps (`mem_closure`), so none is left out.
-/

namespace PackedForest.UnaryRules

variable {rules : UnaryRules}

/-- Every step uses a rule over its tail, and its tail is known or built by a step before it. -/
def Chained (rules : UnaryRules) (known : List Labels) : List UnaryStep → Prop
  | [] => True
  | step :: steps => step.tail ∈ known ∧ ∃ rule, rules[step.rule]? = some rule ∧
      tail? rule = some step.tail ∧ Chained rules (rule.head :: known) steps

theorem mem_withTail {tail : Labels} {place : Nat} {rule : Rule} :
    (place, rule) ∈ rules.withTail tail ↔
      rules[place]? = some rule ∧ tail? rule = some tail := by
  rw [withTail, List.mem_filterMap]
  constructor
  · rintro ⟨⟨r, i⟩, member, kept⟩
    rw [List.mem_zipIdx_iff_getElem?] at member
    dsimp only at kept
    split at kept
    · next tailed =>
        cases kept
        exact ⟨member, tailed⟩
    · cases kept
  · rintro ⟨member, tailed⟩
    exact ⟨(rule, place), List.mem_zipIdx_iff_getElem?.2 member, by simp [tailed]⟩

section Expand

variable {tail : Labels} {distance place : Nat} {rule : Rule} {candidates : List (Nat × Rule)}
variable {found : Found}

theorem expand_new (new : found.lookup rule.head = none) :
    expand tail distance ((place, rule) :: candidates) found =
      let rest := expand tail distance candidates (found ++ [(rule.head, distance + 1)])
      (⟨tail, place⟩ :: rest.1, rest.2) := by
  rw [expand, new]

theorem expand_found {other : Nat} (old : found.lookup rule.head = some other) :
    expand tail distance ((place, rule) :: candidates) found =
      let rest := expand tail distance candidates found
      (if distance < other then ⟨tail, place⟩ :: rest.1 else rest.1, rest.2) := by
  rw [expand, old]

end Expand

/-- The steps of one expansion are chained, and what follows them may rely on their heads. -/
theorem chained_expand {tail : Labels} (distance : Nat) {candidates : List (Nat × Rule)}
    (tailed : ∀ c ∈ candidates, rules[c.1]? = some c.2 ∧ tail? c.2 = some tail)
    {rest : List UnaryStep} {known : List Labels} (tail_known : tail ∈ known) {found : Found}
    (found_known : ∀ x ∈ found, x.1 ∈ known)
    (rest_chained : ∀ more, known ⊆ more →
      (∀ x ∈ (expand tail distance candidates found).2, x.1 ∈ more) → Chained rules more rest) :
    Chained rules known ((expand tail distance candidates found).1 ++ rest) := by
  induction candidates generalizing known found with
  | nil => exact rest_chained known (List.Subset.refl _) found_known
  | cons c candidates ih =>
      obtain ⟨place, rule⟩ := c
      obtain ⟨stored, over_tail⟩ := tailed _ List.mem_cons_self
      have later := fun x h => tailed x (List.mem_cons_of_mem _ h)
      have grown : known ⊆ rule.head :: known := List.subset_cons_self ..
      cases lookup : found.lookup rule.head with
      | none =>
          -- A new head is found one step away, and is known from here on.
          rw [expand_new lookup] at rest_chained ⊢
          refine ⟨tail_known, rule, stored, over_tail, ?_⟩
          refine ih later (grown tail_known) (fun x member => ?_)
            fun more sub => rest_chained more (List.Subset.trans grown sub)
          rcases List.mem_append.1 member with old | new
          · exact grown (found_known x old)
          · rw [List.mem_singleton.1 new]
            exact List.mem_cons_self
      | some other =>
          rw [expand_found lookup] at rest_chained ⊢
          dsimp only at rest_chained ⊢
          split
          · refine ⟨tail_known, rule, stored, over_tail, ?_⟩
            exact ih later (grown tail_known) (fun x member => grown (found_known x member))
              fun more sub => rest_chained more (List.Subset.trans grown sub)
          · exact ih later tail_known found_known rest_chained

theorem chained_search {fuel place : Nat} {found : Found} {known : List Labels}
    (found_known : ∀ x ∈ found, x.1 ∈ known) :
    Chained rules known (rules.search fuel place found) := by
  induction fuel generalizing place found known with
  | zero => trivial
  | succ fuel ih =>
      rw [search]
      split
      · trivial
      · next tail distance here =>
          exact chained_expand distance (fun c member => mem_withTail.1 member)
            (found_known _ (List.mem_of_getElem? here)) found_known fun more _ => ih

theorem chained_closure (start : Labels) : Chained rules [start] (rules.closure start) :=
  chained_search (by simp)

/-- The rule of a step of a closure stands at its place. -/
theorem exists_rule_of_mem_closure {start : Labels} {step : UnaryStep}
    (member : step ∈ rules.closure start) : ∃ rule, rules[step.rule]? = some rule := by
  have chained : ∀ {steps : List UnaryStep} {known : List Labels}, Chained rules known steps →
      step ∈ steps → ∃ rule, rules[step.rule]? = some rule := by
    intro steps
    induction steps with
    | nil => exact fun _ member => by cases member
    | cons first steps ih =>
        intro known ⟨_, rule, stored, _, later⟩ member
        rcases List.mem_cons.1 member with rfl | member
        · exact ⟨rule, stored⟩
        · exact ih later member
  exact chained (chained_closure start) member

/-- At distance zero only the start is as near as the tail, so every other head is kept. -/
theorem mem_expand_zero {start : Labels} {candidates : List (Nat × Rule)} {found : Found}
    (farther : ∀ x ∈ found, x.1 = start ∨ 0 < x.2) {place : Nat} {rule : Rule}
    (member : (place, rule) ∈ candidates) (other : rule.head ≠ start) :
    ⟨start, place⟩ ∈ (expand start 0 candidates found).1 := by
  induction candidates generalizing found with
  | nil => cases member
  | cons c candidates ih =>
      obtain ⟨place', rule'⟩ := c
      cases lookup : found.lookup rule'.head with
      | none =>
          rw [expand_new lookup]
          rcases List.mem_cons.1 member with same | later
          · cases same
            exact List.mem_cons_self
          · refine List.mem_cons_of_mem _ (ih (fun x h => ?_) later)
            rcases List.mem_append.1 h with old | new
            · exact farther x old
            · rw [List.mem_singleton.1 new]
              exact .inr (Nat.succ_pos 0)
      | some depth =>
          rw [expand_found lookup]
          dsimp only
          rcases List.mem_cons.1 member with same | later
          · cases same
            have deeper : 0 < depth :=
              (farther (rule.head, depth) (mem_of_lookup lookup)).resolve_left other
            rw [if_pos deeper]
            exact List.mem_cons_self
          · have kept := ih farther later
            split
            · exact List.mem_cons_of_mem _ kept
            · exact kept

theorem mem_closure {start : Labels} {place : Nat} {rule : Rule}
    (stored : rules[place]? = some rule) (tailed : tail? rule = some start)
    (other : rule.head ≠ start) : ⟨start, place⟩ ∈ rules.closure start := by
  rw [closure, search]
  exact List.mem_append_left _
    (mem_expand_zero (by simp) (mem_withTail.2 ⟨stored, tailed⟩) other)

end PackedForest.UnaryRules
