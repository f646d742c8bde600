import Mathlib.Data.List.Nodup
import PackedForest.Proofs.Related
import PackedForest.Proofs.Unary.Closure

/-!
# Closures are told by distances

The search for a closure judges a rule by the distances that are known at that moment, and it goes
on finding tuples after that. What is found keeps its distance, so the rule would be judged in the
same way at the end (`expand_steps`), and then the distances are those of shortest chains of
rewrites (`Frontier.mem_iff`). So a closure has the rules that lead one step further from the start,
in the order of the distances of their tails (`closure_shortest`).

`Walks` is the search without fuel. That a closure is what it comes to says also that it ends: it
finds no tuples but heads of rules.
-/

namespace PackedForest.UnaryRules

variable {rules : UnaryRules} {start : Labels}

/-! ### Chains -/

/-- The rewrites lead from the start to the tuple, in so many steps. -/
inductive Chain (rules : UnaryRules) (start : Labels) : Labels → Nat → Prop
  | refl : Chain rules start start 0
  | step {tail : Labels} {n : Nat} {rule : Rule} (chain : Chain rules start tail n)
      (stored : rule ∈ rules) (tailed : tail? rule = some tail) :
      Chain rules start rule.head (n + 1)

/-- The length of the shortest chains to a tuple. -/
structure Distance (rules : UnaryRules) (start labels : Labels) (n : Nat) : Prop where
  chain : Chain rules start labels n
  least : ∀ {m : Nat}, Chain rules start labels m → n ≤ m

namespace Distance

variable {labels : Labels} {m n : Nat}

theorem unique (h : Distance rules start labels m) (h' : Distance rules start labels n) : m = n :=
  Nat.le_antisymm (h.least h'.chain) (h'.least h.chain)

theorem start_zero (rules : UnaryRules) (start : Labels) : Distance rules start start 0 :=
  ⟨.refl, fun _ => Nat.zero_le _⟩

/-- A shortest chain goes by a shortest chain to the last tail. -/
theorem exists_tail (h : Distance rules start labels n) (other : labels ≠ start) :
    ∃ tail k, Distance rules start tail k ∧ n = k + 1 ∧
      ∃ rule ∈ rules, tail? rule = some tail ∧ rule.head = labels := by
  cases h.chain with
  | refl => exact absurd rfl other
  | @step tail k rule chain stored tailed =>
      refine ⟨tail, k, ⟨chain, fun chain' => ?_⟩, rfl, rule, stored, tailed, rfl⟩
      exact Nat.le_of_succ_le_succ (h.least (chain'.step stored tailed))

end Distance

/-! ### The search without fuel -/

/-- From a place on the search gives these steps, and then these tuples are found. -/
inductive Walks (rules : UnaryRules) : Nat → Found → List UnaryStep → Found → Prop
  | done {place : Nat} {found : Found} (through : found[place]? = none) :
      Walks rules place found [] found
  | next {place distance : Nat} {found last : Found} {tail : Labels} {steps : List UnaryStep}
      (here : found[place]? = some (tail, distance))
      (rest : Walks rules (place + 1) (expand tail distance (rules.withTail tail) found).2 steps
        last) :
      Walks rules place found ((expand tail distance (rules.withTail tail) found).1 ++ steps) last

/-! ### One expansion -/

/-- The steps over a tuple that lead further away. -/
def further (rules : UnaryRules) (last : Found) (x : Labels × Nat) : List UnaryStep :=
  ((rules.withTail x.1).filter fun c => (last.lookup c.2.head).any (x.2 < ·)).map
    fun c => ⟨x.1, c.1⟩

theorem nodup_withTail (rules : UnaryRules) (tail : Labels) :
    ((rules.withTail tail).map (·.1)).Nodup := by
  have places : (rules.zipIdx.map (·.2)).Nodup := by
    rw [List.zipIdx_map_snd]
    exact List.nodup_range'
  rw [withTail, List.Nodup, List.pairwise_map, List.pairwise_filterMap]
  refine (List.pairwise_map.1 places).imp ?_
  rintro ⟨rule, place⟩ ⟨rule', place'⟩ differ c kept c' kept'
  simp only [Option.ite_none_right_eq_some, Option.some.injEq] at kept kept'
  rw [← kept.2, ← kept'.2]
  exact differ

theorem exists_rule_of_mem_further {last : Found} {x : Labels × Nat} {step : UnaryStep}
    (member : step ∈ further rules last x) :
    ∃ rule, rules[step.rule]? = some rule ∧ tail? rule = some x.1 := by
  obtain ⟨⟨place, rule⟩, kept, rfl⟩ := List.mem_map.1 member
  exact ⟨rule, mem_withTail.1 (List.mem_of_mem_filter kept)⟩

section Expand

variable {tail : Labels} {distance : Nat} {candidates : List (Nat × Rule)} {found : Found}

/-- An expansion finds the heads that were not found before, one step away and each once. -/
theorem expand_found_eq (tail : Labels) (distance : Nat) (candidates : List (Nat × Rule))
    (found : Found) : ∃ new : Found, (expand tail distance candidates found).2 = found ++ new ∧
      (new.map Prod.fst).Nodup ∧
      (∀ x ∈ new, x.1 ∉ found.map Prod.fst ∧ x.2 = distance + 1 ∧
        ∃ c ∈ candidates, c.2.head = x.1) ∧
      ∀ c ∈ candidates, c.2.head ∈ (found ++ new).map Prod.fst := by
  induction candidates generalizing found with
  | nil => exact ⟨[], (List.append_nil _).symm, .nil, by simp, by simp⟩
  | cons c candidates ih =>
      obtain ⟨place, rule⟩ := c
      cases known : found.lookup rule.head with
      | none =>
          obtain ⟨new, grown, apart, heads, covered⟩ := ih (found ++ [(rule.head, distance + 1)])
          rw [expand_new known]
          refine ⟨(rule.head, distance + 1) :: new, ?_, ?_, ?_, ?_⟩
          · exact grown.trans (List.append_assoc ..)
          · refine List.nodup_cons.2 ⟨fun again => ?_, apart⟩
            obtain ⟨x, listed, same⟩ := List.mem_map.1 again
            exact (heads x listed).1 (by simp [same])
          · refine List.forall_mem_cons.2 ⟨⟨lookup_eq_none_iff_notMem.1 known, rfl, _,
              List.mem_cons_self, rfl⟩, fun x listed => ?_⟩
            obtain ⟨unknown, away, c, candidate, head⟩ := heads x listed
            rw [List.map_append, List.mem_append, not_or] at unknown
            exact ⟨unknown.1, away, c, List.mem_cons_of_mem _ candidate, head⟩
          · refine List.forall_mem_cons.2 ⟨by simp, fun c later => ?_⟩
            simpa using covered c later
      | some other =>
          obtain ⟨new, grown, apart, heads, covered⟩ := ih found
          rw [expand_found known]
          refine ⟨new, grown, apart, fun x listed => ?_, ?_⟩
          · obtain ⟨unknown, away, c, candidate, head⟩ := heads x listed
            exact ⟨unknown, away, c, List.mem_cons_of_mem _ candidate, head⟩
          · refine List.forall_mem_cons.2 ⟨?_, covered⟩
            rw [List.map_append, List.mem_append]
            refine .inl (not_not.1 fun absent => ?_)
            rw [lookup_eq_none_iff_notMem.2 absent] at known
            cases known

theorem prefix_expand : found <+: (expand tail distance candidates found).2 := by
  obtain ⟨new, grown, -⟩ := expand_found_eq tail distance candidates found
  exact ⟨new, grown.symm⟩

/-- A rule is judged by what is known at the moment as it would be later on. -/
theorem expand_steps {last : Found} (later : (expand tail distance candidates found).2 <+: last) :
    (expand tail distance candidates found).1 =
      (candidates.filter fun c => (last.lookup c.2.head).any (distance < ·)).map
        fun c => ⟨tail, c.1⟩ := by
  induction candidates generalizing found with
  | nil => rfl
  | cons c candidates ih =>
      obtain ⟨place, rule⟩ := c
      cases known : found.lookup rule.head with
      | none =>
          rw [expand_new known] at later ⊢
          dsimp only at later ⊢
          have added : (found ++ [(rule.head, distance + 1)]).lookup rule.head =
              some (distance + 1) := by
            rw [List.lookup_append, known, List.lookup_cons_self]
            rfl
          have judged := lookup_of_prefix (prefix_expand.trans later) added
          rw [ih later, List.filter_cons_of_pos (by simp [judged]), List.map_cons]
      | some other =>
          rw [expand_found known] at later ⊢
          dsimp only at later ⊢
          have judged := lookup_of_prefix (prefix_expand.trans later) known
          rw [ih later, List.filter_cons, judged]
          by_cases beyond : distance < other <;> simp [beyond]

end Expand

theorem Walks.steps_eq {place : Nat} {found last : Found} {steps : List UnaryStep}
    (walks : Walks rules place found steps last) :
    found <+: last ∧ steps = (last.drop place).flatMap (further rules last) := by
  induction walks with
  | @done place found through =>
      rw [List.drop_eq_nil_of_le (List.getElem?_eq_none_iff.1 through)]
      exact ⟨List.prefix_refl _, rfl⟩
  | @next place distance found last tail steps here rest ih =>
      obtain ⟨later, rfl⟩ := ih
      have before := prefix_expand.trans later
      have here' : last[place]? = some (tail, distance) := by
        obtain ⟨more, rfl⟩ := before
        rw [List.getElem?_append_left (List.getElem?_eq_some_iff.1 here).1, here]
      obtain ⟨inside, at_place⟩ := List.getElem?_eq_some_iff.1 here'
      refine ⟨before, ?_⟩
      rw [expand_steps later, List.drop_eq_getElem_cons inside, List.flatMap_cons, at_place]
      rfl

/-! ### The frontier -/

/-- The tuples before a place have been expanded. Those that are found lie at most one step beyond
each that is still to be expanded. -/
structure Frontier (rules : UnaryRules) (start : Labels) (place : Nat) (found : Found) : Prop where
  apart : (found.map Prod.fst).Nodup
  start_mem : (start, 0) ∈ found
  chain : ∀ x ∈ found, Chain rules start x.1 x.2
  sorted : found.Pairwise (·.2 ≤ ·.2)
  near : ∀ x ∈ found, ∀ y ∈ found.drop place, x.2 ≤ y.2 + 1
  closed : ∀ x ∈ found.take place, ∀ rule ∈ rules, tail? rule = some x.1 →
    ∃ n ≤ x.2 + 1, (rule.head, n) ∈ found

namespace Frontier

variable {place : Nat} {found : Found}

theorem initial (rules : UnaryRules) (start : Labels) : Frontier rules start 0 [(start, 0)] where
  apart := List.nodup_singleton _
  start_mem := List.mem_singleton_self _
  chain x member := by
    rw [List.mem_singleton.1 member]
    exact .refl
  sorted := List.pairwise_singleton ..
  near x member y _ := by
    rw [List.mem_singleton.1 member]
    exact Nat.zero_le _
  closed x none := absurd none List.not_mem_nil

variable (h : Frontier rules start place found)

include h

theorem expand {tail : Labels} {distance : Nat} (here : found[place]? = some (tail, distance)) :
    Frontier rules start (place + 1) (expand tail distance (rules.withTail tail) found).2 := by
  obtain ⟨new, grown, fresh, heads, covered⟩ :=
    expand_found_eq tail distance (rules.withTail tail) found
  obtain ⟨inside, at_place⟩ := List.getElem?_eq_some_iff.1 here
  have chain := h.chain _ (List.mem_of_getElem? here)
  have dropped : found.drop place = (tail, distance) :: found.drop (place + 1) := by
    rw [List.drop_eq_getElem_cons inside, at_place]
  -- No distance exceeds that of the tuple by more than one, and those behind it are no nearer.
  have old_near : ∀ x ∈ found, x.2 ≤ distance + 1 := fun x member =>
    h.near x member (tail, distance) (dropped ▸ List.mem_cons_self)
  have near : ∀ x ∈ found ++ new, x.2 ≤ distance + 1 := List.forall_mem_append.2
    ⟨old_near, fun x listed => Nat.le_of_eq (heads x listed).2.1⟩
  have behind : ∀ y ∈ found.drop (place + 1), distance ≤ y.2 := by
    have sorted := h.sorted.drop (i := place)
    rw [dropped] at sorted
    exact (List.pairwise_cons.1 sorted).1
  rw [grown]
  refine ⟨?_, List.mem_append_left _ h.start_mem, ?_, ?_, fun x member y later => ?_, ?_⟩
  · rw [List.map_append]
    refine List.nodup_append.2 ⟨h.apart, fresh, fun a old b found_now same => ?_⟩
    obtain ⟨x, listed, rfl⟩ := List.mem_map.1 found_now
    exact (heads x listed).1 (same ▸ old)
  · refine List.forall_mem_append.2 ⟨h.chain, fun x listed => ?_⟩
    obtain ⟨-, away, ⟨_, rule⟩, candidate, head⟩ := heads x listed
    obtain ⟨stored, tailed⟩ := mem_withTail.1 candidate
    rw [away, ← head]
    exact chain.step (List.mem_of_getElem? stored) tailed
  · refine List.pairwise_append.2 ⟨h.sorted, ?_, fun x old y listed => ?_⟩
    · refine List.pairwise_of_forall_mem_list fun x listed y listed' => ?_
      exact Nat.le_of_eq ((heads x listed).2.1.trans (heads y listed').2.1.symm)
    · rw [(heads y listed).2.1]
      exact old_near x old
  · have short := near x member
    rw [List.drop_append_of_le_length inside] at later
    rcases List.mem_append.1 later with old | listed
    · exact Nat.le_trans short (Nat.succ_le_succ (behind y old))
    · rw [(heads y listed).2.1]
      omega
  · rw [List.take_append_of_le_length inside, List.take_succ_eq_append_getElem inside, at_place]
    refine List.forall_mem_append.2 ⟨fun x expanded rule stored tailed => ?_, ?_⟩
    · obtain ⟨n, short, member⟩ := h.closed x expanded rule stored tailed
      exact ⟨n, short, List.mem_append_left _ member⟩
    · rintro x only rule stored tailed
      rw [List.mem_singleton.1 only] at tailed ⊢
      obtain ⟨index, at_index⟩ := List.mem_iff_getElem?.1 stored
      obtain ⟨⟨labels, n⟩, member, head⟩ :=
        List.mem_map.1 (covered (index, rule) (mem_withTail.2 ⟨at_index, tailed⟩))
      obtain rfl : labels = rule.head := head
      exact ⟨n, near _ member, member⟩

theorem walks {last : Found} {steps : List UnaryStep} (walks : Walks rules place found steps last) :
    Frontier rules start last.length last := by
  induction walks with
  | @done place found through =>
      have past := List.getElem?_eq_none_iff.1 through
      refine ⟨h.apart, h.start_mem, h.chain, h.sorted, fun x _ y none => ?_, ?_⟩
      · rw [List.drop_length] at none
        cases none
      · rw [List.take_length, ← List.take_of_length_le past]
        intro x expanded rule stored tailed
        rw [List.take_of_length_le past]
        exact h.closed x expanded rule stored tailed
  | next here _ ih => exact ih (h.expand here)

/-- There are no tuples but the start and the heads of rules. -/
theorem length_le : found.length ≤ rules.length + 1 := by
  have listed : found.map Prod.fst ⊆ start :: rules.map Rule.head := by
    intro labels member
    obtain ⟨⟨labels, n⟩, found_mem, rfl⟩ := List.mem_map.1 member
    cases h.chain _ found_mem with
    | refl => exact List.mem_cons_self
    | step _ stored _ => exact List.mem_cons_of_mem _ (List.mem_map_of_mem stored)
  have fewer := h.apart.length_le_of_subset listed
  simpa using fewer

/-- With fuel for all tuples the search comes to what it comes to without. -/
theorem exists_walks {fuel : Nat} (enough : rules.length + 1 ≤ place + fuel) :
    ∃ last, Walks rules place found (rules.search fuel place found) last := by
  induction fuel generalizing place found with
  | zero =>
      exact ⟨found, .done (List.getElem?_eq_none_iff.2 (Nat.le_trans h.length_le enough))⟩
  | succ fuel ih =>
      rw [search]
      cases here : found[place]? with
      | none => exact ⟨found, .done here⟩
      | some x =>
          obtain ⟨last, rest⟩ := ih (h.expand here) (by omega)
          exact ⟨last, .next here rest⟩

end Frontier

/-! ### Once all tuples are expanded -/

section Final

variable {last : Found} (h : Frontier rules start last.length last)

include h

theorem Chain.exists_mem {labels : Labels} {n : Nat} (chain : Chain rules start labels n) :
    ∃ m ≤ n, (labels, m) ∈ last := by
  induction chain with
  | refl => exact ⟨0, Nat.le_refl 0, h.start_mem⟩
  | @step tail n rule _ stored tailed ih =>
      obtain ⟨m, short, member⟩ := ih
      obtain ⟨k, near, head⟩ :=
        h.closed (tail, m) (by rwa [List.take_length]) rule stored tailed
      exact ⟨k, Nat.le_trans near (Nat.succ_le_succ short), head⟩

theorem Frontier.eq_of_mem {labels : Labels} {m n : Nat} (first : (labels, m) ∈ last)
    (second : (labels, n) ∈ last) : m = n := by
  rw [← lookup_eq_some_iff_mem h.apart] at first second
  exact Option.some.inj (first.symm.trans second)

/-- Each tuple is found at its distance. -/
theorem Frontier.mem_iff {labels : Labels} {n : Nat} :
    (labels, n) ∈ last ↔ Distance rules start labels n := by
  constructor
  · refine fun member => ⟨h.chain _ member, fun chain => ?_⟩
    obtain ⟨k, short, member'⟩ := chain.exists_mem h
    rwa [h.eq_of_mem member member']
  · intro distance
    obtain ⟨m, short, member⟩ := distance.chain.exists_mem h
    rwa [Nat.le_antisymm (distance.least (h.chain _ member)) short]

theorem Frontier.mem_further_iff {x : Labels × Nat} (member : x ∈ last) {step : UnaryStep} :
    step ∈ further rules last x ↔ step.tail = x.1 ∧ ∃ rule, rules[step.rule]? = some rule ∧
      tail? rule = some step.tail ∧ Distance rules start rule.head (x.2 + 1) := by
  obtain ⟨tail, n⟩ := x
  have chain := h.chain _ member
  simp only [further, List.mem_map, List.mem_filter, Option.any_eq_true, decide_eq_true_eq,
    lookup_eq_some_iff_mem h.apart]
  constructor
  · rintro ⟨⟨place, rule⟩, ⟨candidate, m, head, beyond⟩, rfl⟩
    obtain ⟨stored, tailed⟩ := mem_withTail.1 candidate
    have distance := h.mem_iff.1 head
    have short := distance.least (chain.step (List.mem_of_getElem? stored) tailed)
    obtain rfl : m = n + 1 := by omega
    exact ⟨rfl, rule, stored, tailed, distance⟩
  · rintro ⟨rfl, rule, stored, tailed, distance⟩
    exact ⟨(step.rule, rule), ⟨mem_withTail.2 ⟨stored, tailed⟩, n + 1, h.mem_iff.2 distance,
      Nat.lt_succ_self n⟩, rfl⟩

theorem Frontier.mem_steps_iff (step : UnaryStep) :
    step ∈ last.flatMap (further rules last) ↔ ∃ rule n, rules[step.rule]? = some rule ∧
      tail? rule = some step.tail ∧ Distance rules start step.tail n ∧
      Distance rules start rule.head (n + 1) := by
  rw [List.mem_flatMap]
  constructor
  · rintro ⟨⟨tail, n⟩, member, judged⟩
    obtain ⟨rfl, rule, stored, tailed, head⟩ := (h.mem_further_iff member).1 judged
    exact ⟨rule, n, stored, tailed, h.mem_iff.1 member, head⟩
  · rintro ⟨rule, n, stored, tailed, distance, head⟩
    have member := h.mem_iff.2 distance
    exact ⟨_, member, (h.mem_further_iff member).2 ⟨rfl, rule, stored, tailed, head⟩⟩

theorem Frontier.nodup_steps : ((last.flatMap (further rules last)).map (·.rule)).Nodup := by
  rw [List.map_flatMap]
  refine List.nodup_flatMap.2 ⟨fun x _ => ?_, (List.pairwise_map.1 h.apart).imp ?_⟩
  · rw [further, List.map_map]
    exact (nodup_withTail rules x.1).sublist ((List.filter_sublist ..).map _)
  · intro x y differ place left right
    obtain ⟨step, judged, rfl⟩ := List.mem_map.1 left
    obtain ⟨step', judged', same⟩ := List.mem_map.1 right
    obtain ⟨rule, stored, tailed⟩ := exists_rule_of_mem_further judged
    obtain ⟨rule', stored', tailed'⟩ := exists_rule_of_mem_further judged'
    rw [same, stored, Option.some.injEq] at stored'
    rw [← stored', tailed, Option.some.injEq] at tailed'
    exact differ tailed'

theorem Frontier.pairwise_steps : (last.flatMap (further rules last)).Pairwise fun s t =>
    ∀ m n, Distance rules start s.tail m → Distance rules start t.tail n → m ≤ n := by
  refine List.pairwise_flatMap.2 ⟨fun x member => ?_, h.sorted.imp_of_mem ?_⟩
  · refine List.pairwise_of_forall_mem_list fun s judged t judged' m n distance distance' => ?_
    rw [((h.mem_further_iff member).1 judged).1] at distance
    rw [((h.mem_further_iff member).1 judged').1] at distance'
    exact Nat.le_of_eq (distance.unique distance')
  · intro x y member member' nearer s judged t judged' m n distance distance'
    rw [((h.mem_further_iff member).1 judged).1] at distance
    rw [((h.mem_further_iff member').1 judged').1] at distance'
    rwa [distance.unique (h.mem_iff.1 member), distance'.unique (h.mem_iff.1 member')]

end Final

/-- In a chained list each tail is known, or the head of a step before. -/
theorem Chained.tail_of_split {known : List Labels} {before after : List UnaryStep}
    {step : UnaryStep} (chained : Chained rules known (before ++ step :: after)) :
    step.tail ∈ known ∨
      ∃ s ∈ before, ∃ rule, rules[s.rule]? = some rule ∧ rule.head = step.tail := by
  induction before generalizing known with
  | nil => exact .inl chained.1
  | cons s before ih =>
      obtain ⟨-, rule, stored, -, later⟩ := chained
      rcases ih later with either | ⟨s', earlier, built⟩
      · rcases List.mem_cons.1 either with built | old
        · exact .inr ⟨s, List.mem_cons_self, rule, stored, built.symm⟩
        · exact .inl old
      · exact .inr ⟨s', List.mem_cons_of_mem _ earlier, built⟩

/-- The search for a closure ends on every list of rules, with all tuples that the rewrites lead
to and their distances. The closure has those rules, each once, that lead from a distance to the
next one, by distance. The first tail is the start, and each other one is the start or the head of
a step before. The heads are the tuples that the rewrites lead to, other than the start. -/
theorem closure_shortest (rules : UnaryRules) (start : Labels) :
    (∃ found, Walks rules 0 [(start, 0)] (rules.closure start) found ∧
      ∀ labels n, (labels, n) ∈ found ↔ Distance rules start labels n) ∧
    ((rules.closure start).map (·.rule)).Nodup ∧
    (∀ step, step ∈ rules.closure start ↔ ∃ rule n, rules[step.rule]? = some rule ∧
      tail? rule = some step.tail ∧ Distance rules start step.tail n ∧
      Distance rules start rule.head (n + 1)) ∧
    ((rules.closure start).Pairwise fun s t => ∀ m n,
      Distance rules start s.tail m → Distance rules start t.tail n → m ≤ n) ∧
    (∀ before step after, rules.closure start = before ++ step :: after → step.tail = start ∨
      ∃ s ∈ before, ∃ rule, rules[s.rule]? = some rule ∧ rule.head = step.tail) ∧
    ∀ labels, (∃ step ∈ rules.closure start, ∃ rule, rules[step.rule]? = some rule ∧
      rule.head = labels) ↔ labels ≠ start ∧ ∃ n, Chain rules start labels n := by
  have initial := Frontier.initial rules start
  have enough : rules.length + 1 ≤ 0 + (rules.length + 1) := Nat.le_of_eq (Nat.zero_add _).symm
  obtain ⟨last, walks⟩ := initial.exists_walks enough
  have final := initial.walks walks
  have steps : rules.closure start = last.flatMap (further rules last) := walks.steps_eq.2
  have member := steps ▸ final.mem_steps_iff
  refine ⟨⟨last, walks, fun labels n => final.mem_iff⟩, steps ▸ final.nodup_steps, member,
    steps ▸ final.pairwise_steps, fun before step after split => ?_, fun labels => ?_⟩
  · exact (split ▸ chained_closure start).tail_of_split.imp_left List.mem_singleton.1
  · constructor
    · rintro ⟨step, listed, rule, stored, rfl⟩
      obtain ⟨rule', n, stored', -, -, head⟩ := (member step).1 listed
      obtain rfl := Option.some.inj (stored.symm.trans stored')
      refine ⟨fun same => ?_, n + 1, head.chain⟩
      exact Nat.succ_ne_zero n ((same ▸ head).unique (.start_zero rules start))
    · rintro ⟨other, n, chain⟩
      obtain ⟨m, -, found⟩ := chain.exists_mem final
      have distance := final.mem_iff.1 found
      obtain ⟨tail, k, before, rfl, rule, stored, tailed, rfl⟩ := distance.exists_tail other
      obtain ⟨place, at_place⟩ := List.mem_iff_getElem?.1 stored
      exact ⟨⟨tail, place⟩, (member _).2 ⟨rule, k, at_place, tailed, before, distance⟩, rule,
        at_place, rfl⟩

end PackedForest.UnaryRules
