import PackedForest.Proofs.Unary.Expansion

/-!
# The worklist runs to its end

The run of the worklist is looked at round by round; a round takes the next tuple and tries the
rules of its closures. `rounds_exhausted` shows that the fuel is enough: after that many rounds
no tuple is left, so a loop without fuel would stop in the same state.

`SpanProgress.Expanded` says what the worklist leaves behind. The tuples on the span are those
that unary rules reach from the tuples that were there before, and the rules that were used are
all those with a tail on the span, save where the tail leads to the head.
-/

namespace PackedForest

open Reachability (Acyclic Leads reaches reaches_eq_true_iff)
open Relation (ReflTransGen)

namespace UnaryProgress

variable {span : Span} {grammars : List Grammar} {start : SpanProgress}

/-- With one more unit of fuel the run takes one more round, if there is a tuple left for it. -/
theorem run_succ (fuel place : Nat) (p : UnaryProgress) :
    run span grammars (fuel + 1) place p =
      match (run span grammars fuel place p).span.fresh[place + fuel]? with
      | none => run span grammars fuel place p
      | some labels => (run span grammars fuel place p).applyClosures span grammars labels := by
  induction fuel generalizing place p with
  | zero =>
      rw [run, run, Nat.add_zero]
      split <;> simp_all [run]
  | succ fuel ih =>
      rw [run]
      split
      · next done =>
          have stays : run span grammars (fuel + 1) place p = p := by
            rw [run, done]
          have beyond : p.span.fresh[place + (fuel + 1)]? = none := by
            rw [List.getElem?_eq_none_iff] at done ⊢
            omega
          rw [stays, beyond]
      · next labels here =>
          have goes : run span grammars (fuel + 1) place p =
              run span grammars fuel (place + 1) (p.applyClosures span grammars labels) := by
            rw [run, here]
          rw [goes, ih, show place + 1 + fuel = place + (fuel + 1) by omega]

/-- The state after some rounds. -/
def rounds (span : Span) (grammars : List Grammar) (start : SpanProgress) (k : Nat) :
    UnaryProgress := run span grammars k 0 ⟨start, [], []⟩

/-- Every rule of a closure was tried, for all tuples on the span. -/
def Settled (grammars : List Grammar) (p : UnaryProgress) : Prop :=
  ∀ labels ∈ p.span.fresh, ∀ a ∈ attempts grammars labels, a.rule ∈ p.tried

section Rounds

variable (wf : start.forest.WellFormed) (tracks : start.Tracks span)

include wf tracks

/-- The invariant holds after any number of rounds, and the tuples of these rounds are done. -/
theorem expansion_rounds (grammars : List Grammar) (k : Nat) :
    (∃ fired, Expansion span grammars start (rounds span grammars start k) fired) ∧
      ∀ j < k, ∀ labels, (rounds span grammars start k).span.fresh[j]? = some labels →
        ∀ a ∈ attempts grammars labels, a.rule ∈ (rounds span grammars start k).tried := by
  induction k with
  | zero => exact ⟨⟨[], .initial wf tracks⟩, fun j lt => absurd lt (Nat.not_lt_zero j)⟩
  | succ k ih =>
      obtain ⟨⟨fired, h⟩, done⟩ := ih
      have next : rounds span grammars start (k + 1) =
          match (rounds span grammars start k).span.fresh[k]? with
          | none => rounds span grammars start k
          | some labels => (rounds span grammars start k).applyClosures span grammars labels := by
        rw [rounds, run_succ, Nat.zero_add]
        rfl
      rw [next]
      cases here : (rounds span grammars start k).span.fresh[k]? with
      | none =>
          refine ⟨⟨fired, h⟩, fun j lt labels found => ?_⟩
          rcases Nat.lt_succ_iff_lt_or_eq.1 lt with before | rfl
          · exact done j before labels found
          · rw [here] at found
            cases found
      | some labels =>
          have worked := h.round (List.mem_of_getElem? here)
          dsimp only
          rw [applyClosures_eq]
          refine ⟨worked.expansion, fun j lt labels' found => ?_⟩
          have same : (rounds span grammars start k).span.fresh[j]? = some labels' := by
            have inside := (List.getElem?_eq_some_iff.1 here).1
            obtain ⟨more, grown⟩ := worked.later.fresh
            rwa [← grown, List.getElem?_append_left (by omega)] at found
          rcases Nat.lt_succ_iff_lt_or_eq.1 lt with before | rfl
          · exact fun a member => worked.later.tried (done j before labels' same a member)
          · rw [here] at same
            cases same
            exact worked.tried

/-- The worklist ends: after as many rounds as there were tuples and unary rules, no tuple is
left. -/
theorem rounds_exhausted (grammars : List Grammar) {k : Nat}
    (enough : start.fresh.length + (grammars.flatMap (·.unaries)).length ≤ k) :
    (rounds span grammars start k).span.fresh[k]? = none := by
  obtain ⟨⟨fired, h⟩, -⟩ := expansion_rounds wf tracks grammars k
  have bound : fired.length ≤ (unaryRules grammars).length := by
    have numbers : fired.map (·.1) ⊆ (unaryRules grammars).map (·.1) := fun o member => by
      obtain ⟨x, fired_mem, rfl⟩ := List.mem_map.1 member
      exact List.mem_map.2 ⟨_, (h.fired_use x fired_mem).1, rfl⟩
    have fewer := List.Nodup.length_le_of_subset h.nodup numbers
    rwa [List.length_map, List.length_map] at fewer
  rw [length_unaryRules] at bound
  rw [List.getElem?_eq_none_iff]
  have := h.short
  omega

/-- The state in which the worklist ends. No tuple is left for another round. -/
theorem applyUnaries_eq (grammars : List Grammar) :
    ∃ k, (rounds span grammars start k).span = start.applyUnaries span grammars ∧
      (rounds span grammars start k).span.fresh[k]? = none ∧
      Settled grammars (rounds span grammars start k) := by
  refine ⟨_, rfl, rounds_exhausted wf tracks grammars (Nat.le_refl _), fun labels member => ?_⟩
  obtain ⟨j, found⟩ := List.mem_iff_getElem?.1 member
  have done := rounds_exhausted wf tracks grammars (Nat.le_refl _)
  rw [List.getElem?_eq_none_iff] at done
  have inside := (List.getElem?_eq_some_iff.1 found).1
  exact (expansion_rounds wf tracks grammars _).2 j (by omega) labels found

end Rounds

/-- A rule whose tail is on the span was tried, unless it rewrites a tuple to itself. -/
theorem Settled.tried {p : UnaryProgress} (settled : Settled grammars p) {o : Nat × Nat}
    {g : Grammar} {r : Rule} {labels : Labels}
    (registered : (o, g, r) ∈ unaryRules grammars) (tailed : UnaryRules.tail? r = some labels)
    (present : labels ∈ p.span.fresh) (other : r.head ≠ labels) : o ∈ p.tried := by
  obtain ⟨hg, hr⟩ := mem_unaryRules.1 registered
  have step := UnaryRules.mem_closure hr tailed other
  refine settled labels present ⟨o.1, g, ⟨labels, o.2⟩⟩ ?_
  exact List.mem_flatMap.2 ⟨(g, o.1), List.mem_zipIdx_iff_getElem?.2 hg,
    List.mem_map.2 ⟨_, step, rfl⟩⟩

namespace Expansion

variable {p : UnaryProgress} {fired : List ((Nat × Nat) × UnaryUse)}

/-- With its tail on the span, a rule has its head there too. -/
theorem head_of_settled (h : Expansion span grammars start p fired)
    (settled : Settled grammars p) {below above : Labels} (present : below ∈ p.span.fresh)
    (rewrite : Rewrites grammars below above) : above ∈ p.span.fresh := by
  obtain ⟨g, hg, r, hr, tailed, rfl⟩ := rewrite
  by_cases same : r.head = below
  · exact same ▸ present
  obtain ⟨place, hg⟩ := List.mem_iff_getElem?.1 hg
  obtain ⟨index, hr⟩ := List.mem_iff_getElem?.1 hr
  have registered : ((place, index), g, r) ∈ unaryRules grammars := mem_unaryRules.2 ⟨hg, hr⟩
  exact h.head_mem (settled.tried registered tailed present same) registered

theorem mem_fresh_iff (h : Expansion span grammars start p fired)
    (settled : Settled grammars p) (tracks : start.Tracks span) (labels : Labels) :
    labels ∈ p.span.fresh ↔ ∃ l ∈ start.fresh, ReflTransGen (Rewrites grammars) l labels := by
  refine ⟨h.rewrites labels, ?_⟩
  rintro ⟨l, first, path⟩
  induction path with
  | refl =>
      obtain ⟨id, found⟩ := Option.isSome_iff_exists.1 ((tracks l).1 first)
      rw [h.tracks, h.grows.find?_of found]
      rfl
  | tail _ rewrite ih => exact h.head_of_settled settled ih rewrite

/-- The rules that were used are those between nodes of the span whose tail does not lead to
the head. -/
theorem mem_fired_iff (h : Expansion span grammars start p fired)
    (settled : Settled grammars p) {o : Nat × Nat} {u : UnaryUse} :
    (o, u) ∈ fired ↔ ∃ g r, (o, g, r) ∈ unaryRules grammars ∧
      unaryUse? p.span.forest.chart span g r = some u ∧ ¬ Leads p.links u.tail u.head := by
  constructor
  · intro member
    obtain ⟨registered, use⟩ := h.fired_use _ member
    refine ⟨_, _, registered, use, h.acyclic.not_leads ?_⟩
    change u.link ∈ p.links
    rw [h.links, List.mem_reverse]
    exact List.mem_map.2 ⟨_, member, rfl⟩
  · rintro ⟨g, r, registered, use, apart⟩
    obtain ⟨hg, hr, ⟨labels, tailed, found⟩, head_found⟩ := unaryUse?_eq_some_iff.1 use
    have present : labels ∈ p.span.fresh := (h.tracks _).2 (by rw [found]; rfl)
    have other : r.head ≠ labels := by
      intro same
      rw [same, found] at head_found
      rw [Option.some.inj head_found] at apart
      exact apart .refl
    have tried := settled.tried registered tailed present other
    obtain ⟨g', r', u', registered', use', how⟩ := h.tried_use o tried
    obtain ⟨rfl, rfl⟩ := unaryRules_unique registered registered'
    cases use.symm.trans use'
    exact how.resolve_right apart

/-- The use of a rule under its number, unless its tail leads to its head along the links. -/
def openUse? (chart : Chart) (span : Span) (links : List (NodeId × NodeId))
    (x : (Nat × Nat) × Grammar × Rule) : Option ((Nat × Nat) × UnaryUse) :=
  ((unaryUse? chart span x.2.1 x.2.2).filter fun u => !reaches links u.tail u.head).map (x.1, ·)

theorem openUse?_eq_some_iff {chart : Chart} {links : List (NodeId × NodeId)}
    {x : (Nat × Nat) × Grammar × Rule} {y : (Nat × Nat) × UnaryUse} :
    openUse? chart span links x = some y ↔ x.1 = y.1 ∧
      unaryUse? chart span x.2.1 x.2.2 = some y.2 ∧ ¬ Leads links y.2.tail y.2.head := by
  obtain ⟨o, u⟩ := y
  simp only [openUse?, Option.map_eq_some_iff, Option.filter_eq_some_iff, Bool.not_eq_true',
    ← Bool.not_eq_true, reaches_eq_true_iff]
  constructor
  · rintro ⟨v, ⟨use, apart⟩, same⟩
    cases same
    exact ⟨rfl, use, apart⟩
  · rintro ⟨rfl, use, apart⟩
    exact ⟨u, ⟨use, apart⟩, rfl⟩

/-- The rules that were used, each as often as the grammars have it. -/
theorem perm (h : Expansion span grammars start p fired) (settled : Settled grammars p) :
    (fired.map (·.2)).Perm ((grammars.flatMap fun g => g.unaries.map (g, ·)).filterMap fun x =>
      (unaryUse? p.span.forest.chart span x.1 x.2).filter fun u =>
        !reaches p.links u.tail u.head) := by
  have distinct : ((unaryRules grammars).filterMap
      (openUse? p.span.forest.chart span p.links)).Nodup := by
    refine List.Nodup.filterMap (fun x x' y use use' => ?_)
      (List.Nodup.of_map _ (nodup_unaryRules grammars))
    obtain ⟨number, found, -⟩ := openUse?_eq_some_iff.1 use
    obtain ⟨number', found', -⟩ := openUse?_eq_some_iff.1 use'
    obtain ⟨hg, hr, -⟩ := unaryUse?_eq_some_iff.1 found
    obtain ⟨hg', hr', -⟩ := unaryUse?_eq_some_iff.1 found'
    exact Prod.ext (number.trans number'.symm)
      (Prod.ext (hg.symm.trans hg') (hr.symm.trans hr'))
  have numbered : fired.Perm
      ((unaryRules grammars).filterMap (openUse? p.span.forest.chart span p.links)) := by
    refine (List.perm_ext_iff_of_nodup (List.Nodup.of_map _ h.nodup) distinct).2 fun y => ?_
    rw [h.mem_fired_iff settled, List.mem_filterMap]
    constructor
    · rintro ⟨g, r, registered, use, apart⟩
      exact ⟨(y.1, g, r), registered, openUse?_eq_some_iff.2 ⟨rfl, use, apart⟩⟩
    · rintro ⟨⟨o, g, r⟩, registered, use⟩
      obtain ⟨rfl, found, apart⟩ := openUse?_eq_some_iff.1 use
      exact ⟨g, r, registered, found, apart⟩
  have unnumbered := numbered.map (·.2)
  rw [List.map_filterMap] at unnumbered
  rw [← map_unaryRules, List.filterMap_map]
  refine unnumbered.trans (.of_eq (List.filterMap_congr fun x _ => ?_))
  simp only [openUse?, Option.map_map, Function.comp_def, Option.map_id']

end Expansion

end UnaryProgress

namespace SpanProgress

/-- What the unary rules make of a span. `uses` lists the rules that were used, in order. -/
structure Expanded (span : Span) (grammars : List Grammar) (start final : SpanProgress)
    (uses : List UnaryUse) : Prop where
  grows : start.forest.Grows (uses.map fun u => (span, u.application)) final.forest
  isSome_iff : ∀ labels, (final.forest.chart.find? span labels).isSome ↔
    ∃ l ∈ start.fresh, ReflTransGen (Rewrites grammars) l labels
  acyclic : Acyclic (uses.map UnaryUse.link)
  between : ∀ u ∈ uses, (∃ labels, final.forest.chart.find? span labels = some u.tail) ∧
    final.forest.chart.find? span u.rule.head = some u.head
  perm : uses.Perm ((grammars.flatMap fun g => g.unaries.map (g, ·)).filterMap fun x =>
    (unaryUse? final.forest.chart span x.1 x.2).filter fun u =>
      !reaches (uses.map UnaryUse.link) u.tail u.head)

theorem applyUnaries_expanded {span : Span} {start : SpanProgress}
    (wf : start.forest.WellFormed) (tracks : start.Tracks span) (grammars : List Grammar) :
    ∃ uses, Expanded span grammars start (start.applyUnaries span grammars) uses := by
  obtain ⟨k, final, -, settled⟩ := UnaryProgress.applyUnaries_eq wf tracks grammars
  obtain ⟨⟨fired, h⟩, -⟩ := UnaryProgress.expansion_rounds wf tracks grammars k
  rw [← final]
  have links := h.links
  refine ⟨fired.map (·.2), ?_, fun labels => ?_, ?_, fun u member => ?_, ?_⟩
  · rw [List.map_map]
    exact h.grows
  · rw [← h.tracks, h.mem_fresh_iff settled tracks]
  · refine h.acyclic.mono ?_
    rw [links, List.map_map]
    exact List.subset_reverse.2 (List.Subset.refl _)
  · obtain ⟨x, fired_mem, rfl⟩ := List.mem_map.1 member
    obtain ⟨-, -, ⟨labels, -, found⟩, head⟩ := unaryUse?_eq_some_iff.1 (h.fired_use x fired_mem).2
    exact ⟨⟨labels, found⟩, head⟩
  · have perm := h.perm settled
    simp only [links, Reachability.reaches_reverse] at perm
    rw [List.map_map]
    exact perm

end SpanProgress

end PackedForest
