import Mathlib.Data.List.Nodup
import PackedForest.Proofs.Forest.Sharing
import PackedForest.Proofs.Reachability
import PackedForest.Proofs.Unary.Closure

/-!
# The worklist of unary rules

`Expansion` is the invariant of the worklist on one span. It keeps a list of the rules that were
used so far, each with its nodes, and says of every rule that was tried that its tail and its
head have nodes now: either it was used, or its tail leads to its head already. Since steps of a
closure come in an order in which tails are built first, no rule is tried before its tail has a
node (`Expansion.round`).

When the worklist is through, the rules with a tail on the span that were not used are those
whose tail leads to their head, and the tuples on the span are those that unary rules reach from
the tuples that were there before.
-/

namespace PackedForest

open Reachability (Acyclic Leads reaches_eq_true_iff)
open Relation (ReflTransGen)

/-- A unary rule between the nodes of its tail and its head. -/
structure UnaryUse where
  grammar : Grammar
  rule : Rule
  tail : NodeId
  head : NodeId

namespace UnaryUse

def application (u : UnaryUse) : Application := ⟨u.rule, [u.tail], u.grammar.keepSourceText⟩

def link (u : UnaryUse) : NodeId × NodeId := (u.head, u.tail)

end UnaryUse

/-- A unary rule between its nodes on a span, if both are there. -/
def unaryUse? (chart : Chart) (span : Span) (g : Grammar) (r : Rule) : Option UnaryUse :=
  match (UnaryRules.tail? r).bind (chart.find? span), chart.find? span r.head with
  | some tail, some head => some ⟨g, r, tail, head⟩
  | _, _ => none

theorem unaryUse?_eq_some_iff {chart : Chart} {span : Span} {g : Grammar} {r : Rule}
    {u : UnaryUse} : unaryUse? chart span g r = some u ↔ u.grammar = g ∧ u.rule = r ∧
      (∃ labels, UnaryRules.tail? r = some labels ∧ chart.find? span labels = some u.tail) ∧
      chart.find? span r.head = some u.head := by
  unfold unaryUse?
  split
  · next tail head tail_found head_found =>
      obtain ⟨labels, tailed, found⟩ := Option.bind_eq_some_iff.1 tail_found
      constructor
      · intro h
        cases h
        exact ⟨rfl, rfl, ⟨labels, tailed, found⟩, head_found⟩
      · rintro ⟨hg, hr, ⟨labels', tailed', found'⟩, head'⟩
        cases tailed.symm.trans tailed'
        cases found.symm.trans found'
        cases head_found.symm.trans head'
        cases u
        cases hg
        cases hr
        rfl
  · next missing =>
      refine ⟨fun h => (by cases h), ?_⟩
      rintro ⟨-, -, ⟨labels, tailed, found⟩, head⟩
      exact absurd head (missing u.tail u.head (by rw [tailed, Option.bind_some, found]))

theorem unaryUse?_mono {f f' : Forest} {placed : List (Span × Application)}
    (grows : f.Grows placed f') {span : Span} {g : Grammar} {r : Rule} {u : UnaryUse}
    (h : unaryUse? f.chart span g r = some u) : unaryUse? f'.chart span g r = some u := by
  obtain ⟨hg, hr, ⟨labels, tailed, found⟩, head⟩ := unaryUse?_eq_some_iff.1 h
  exact unaryUse?_eq_some_iff.2
    ⟨hg, hr, ⟨labels, tailed, grows.find?_of found⟩, grows.find?_of head⟩

/-- The unary rules of all grammars. A rule goes by the place of its grammar and its own. -/
def unaryRules (grammars : List Grammar) : List ((Nat × Nat) × Grammar × Rule) :=
  grammars.zipIdx.flatMap fun (g, place) =>
    g.unaries.zipIdx.map fun (r, index) => ((place, index), g, r)

theorem mem_unaryRules {grammars : List Grammar} {o : Nat × Nat} {g : Grammar} {r : Rule} :
    (o, g, r) ∈ unaryRules grammars ↔ grammars[o.1]? = some g ∧ g.unaries[o.2]? = some r := by
  simp only [unaryRules, List.mem_flatMap, List.mem_map]
  constructor
  · rintro ⟨⟨g', place⟩, hg, ⟨r', index⟩, hr, same⟩
    cases same
    exact ⟨List.mem_zipIdx_iff_getElem?.1 hg, List.mem_zipIdx_iff_getElem?.1 hr⟩
  · rintro ⟨hg, hr⟩
    exact ⟨(g, o.1), List.mem_zipIdx_iff_getElem?.2 hg, (r, o.2),
      List.mem_zipIdx_iff_getElem?.2 hr, rfl⟩

/-- The places tell the rules apart. -/
theorem unaryRules_unique {grammars : List Grammar} {o : Nat × Nat} {g g' : Grammar} {r r' : Rule}
    (h : (o, g, r) ∈ unaryRules grammars) (h' : (o, g', r') ∈ unaryRules grammars) :
    g = g' ∧ r = r' := by
  obtain ⟨hg, hr⟩ := mem_unaryRules.1 h
  obtain ⟨hg', hr'⟩ := mem_unaryRules.1 h'
  obtain rfl := Option.some.inj (hg.symm.trans hg')
  exact ⟨rfl, Option.some.inj (hr.symm.trans hr')⟩

theorem map_unaryRules (grammars : List Grammar) :
    (unaryRules grammars).map (·.2) = grammars.flatMap fun g => g.unaries.map (g, ·) := by
  rw [unaryRules, List.map_flatMap]
  conv_rhs => rw [← List.zipIdx_map_fst 0 grammars, List.flatMap_map]
  refine List.flatMap_congr fun x _ => ?_
  rw [List.map_map]
  conv_rhs => rw [← List.zipIdx_map_fst 0 x.1.unaries, List.map_map]
  rfl

theorem length_unaryRules (grammars : List Grammar) :
    (unaryRules grammars).length = (grammars.flatMap (·.unaries)).length := by
  rw [← List.length_map (f := (·.2)), map_unaryRules]
  simp [List.length_flatMap]

theorem nodup_unaryRules (grammars : List Grammar) :
    ((unaryRules grammars).map (·.1)).Nodup := by
  rw [unaryRules, List.map_flatMap, List.nodup_flatMap]
  have places : (grammars.zipIdx.map (·.2)).Nodup := by
    rw [List.zipIdx_map_snd]
    exact List.nodup_range'
  constructor
  · intro x _
    rw [List.map_map]
    have indices : (x.1.unaries.zipIdx.map (·.2)).Nodup := by
      rw [List.zipIdx_map_snd]
      exact List.nodup_range'
    have paired := indices.map (f := fun index => (x.2, index)) fun _ _ same =>
      (Prod.mk.inj same).2
    rw [List.map_map] at paired
    exact paired
  · refine (List.pairwise_map.1 places).imp fun {x y} other => ?_
    intro o left right
    obtain ⟨_, h, rfl⟩ := List.mem_map.1 left
    obtain ⟨_, h', same⟩ := List.mem_map.1 right
    obtain ⟨_, -, rfl⟩ := List.mem_map.1 h
    obtain ⟨_, -, rfl⟩ := List.mem_map.1 h'
    exact other (Prod.mk.inj same).1.symm

/-- One tuple is rewritten to another by a unary rule of some grammar. -/
def Rewrites (grammars : List Grammar) (below above : Labels) : Prop :=
  ∃ g ∈ grammars, ∃ r ∈ g.unaries, UnaryRules.tail? r = some below ∧ r.head = above

/-- A step of a closure, with the place of its grammar. -/
structure Attempt where
  place : Nat
  grammar : Grammar
  step : UnaryStep

namespace Attempt

/-- The rule that is tried, by its places. -/
def rule (a : Attempt) : Nat × Nat := (a.place, a.step.rule)

end Attempt

/-- The attempts for one tuple, in the order in which the worklist makes them. -/
def attempts (grammars : List Grammar) (labels : Labels) : List Attempt :=
  grammars.zipIdx.flatMap fun (g, place) =>
    (g.unaries.closure labels).map fun step => ⟨place, g, step⟩

namespace UnaryProgress

variable {span : Span} {grammars : List Grammar} {start : SpanProgress}

/-- The state after an attempt. -/
def attempt (span : Span) (p : UnaryProgress) (a : Attempt) : UnaryProgress :=
  p.apply span a.place a.grammar a.step

theorem applyClosures_eq (p : UnaryProgress) (labels : Labels) :
    p.applyClosures span grammars labels = (attempts grammars labels).foldl (attempt span) p := by
  rw [applyClosures, attempts, List.foldl_flatMap]
  simp only [List.foldl_map]
  rfl

section Attempt

variable {p : UnaryProgress} {a : Attempt} {rule : Rule} {tail : NodeId}

theorem attempt_of_tried (tried : a.rule ∈ p.tried) : p.attempt span a = p := by
  rw [attempt, apply]
  exact if_pos tried

/-- The head leads to the tail already, so the rule would close a cycle. -/
theorem attempt_of_cycle {head : NodeId} (untried : a.rule ∉ p.tried)
    (stored : a.grammar.unaries[a.step.rule]? = some rule)
    (found : p.span.forest.chart.find? span a.step.tail = some tail)
    (head_found : p.span.forest.chart.find? span rule.head = some head)
    (cycle : Leads p.links tail head) :
    p.attempt span a = { p with tried := a.rule :: p.tried } := by
  have guard := reaches_eq_true_iff.2 cycle
  rw [attempt, apply]
  refine (if_neg untried).trans ?_
  simp only [stored, found, head_found, Option.any_some, guard, if_true]
  rfl

/-- No head that is there leads to the tail, so the rule is used. -/
theorem attempt_of_open (untried : a.rule ∉ p.tried)
    (stored : a.grammar.unaries[a.step.rule]? = some rule)
    (found : p.span.forest.chart.find? span a.step.tail = some tail)
    (guard : ∀ head, p.span.forest.chart.find? span rule.head = some head →
      ¬ Leads p.links tail head) :
    p.attempt span a =
      { span := p.span.apply span ⟨rule, [tail], a.grammar.keepSourceText⟩
        tried := a.rule :: p.tried
        links := ((p.span.forest.chart.find? span rule.head).getD p.span.forest.graph.nodes.size,
          tail) :: p.links } := by
  have free : (p.span.forest.chart.find? span rule.head).any
      (Reachability.reaches p.links tail) = false := by
    rw [Option.any_eq_false]
    intro head head_found
    rw [← Bool.not_eq_true, reaches_eq_true_iff]
    exact guard head head_found
  rw [attempt, apply]
  refine (if_neg untried).trans ?_
  simp only [stored, found, free, Bool.false_eq_true, if_false]
  rfl

end Attempt

/-- What the worklist has done so far. `fired` lists the rules that were used, in order. -/
structure Expansion (span : Span) (grammars : List Grammar) (start : SpanProgress)
    (p : UnaryProgress) (fired : List ((Nat × Nat) × UnaryUse)) : Prop where
  grows : start.forest.Grows (fired.map fun x => (span, x.2.application)) p.span.forest
  tracks : p.span.Tracks span
  short : p.span.fresh.length ≤ start.fresh.length + fired.length
  rewrites : ∀ labels ∈ p.span.fresh, ∃ l ∈ start.fresh, ReflTransGen (Rewrites grammars) l labels
  links : p.links = (fired.map (·.2.link)).reverse
  acyclic : Acyclic p.links
  nodup : (fired.map (·.1)).Nodup
  fired_tried : ∀ x ∈ fired, x.1 ∈ p.tried
  fired_use : ∀ x ∈ fired, (x.1, x.2.grammar, x.2.rule) ∈ unaryRules grammars ∧
    unaryUse? p.span.forest.chart span x.2.grammar x.2.rule = some x.2
  tried_use : ∀ o ∈ p.tried, ∃ g r u, (o, g, r) ∈ unaryRules grammars ∧
    unaryUse? p.span.forest.chart span g r = some u ∧
    ((o, u) ∈ fired ∨ Leads p.links u.tail u.head)

/-- Nothing that was tried or found is given up. -/
structure Later (p p' : UnaryProgress) : Prop where
  tried : p.tried ⊆ p'.tried
  fresh : p.span.fresh <+: p'.span.fresh

theorem Later.refl (p : UnaryProgress) : Later p p := ⟨List.Subset.refl _, List.prefix_refl _⟩

theorem Later.trans {p p' p'' : UnaryProgress} (h : Later p p') (h' : Later p' p'') :
    Later p p'' := ⟨List.Subset.trans h.tried h'.tried, h.fresh.trans h'.fresh⟩

namespace Expansion

variable {p : UnaryProgress} {fired : List ((Nat × Nat) × UnaryUse)}

theorem initial (wf : start.forest.WellFormed) (tracks : start.Tracks span) :
    Expansion span grammars start ⟨start, [], []⟩ [] where
  grows := .refl wf
  tracks := tracks
  short := Nat.le_refl _
  rewrites labels member := ⟨labels, member, .refl⟩
  links := rfl
  acyclic := .nil
  nodup := .nil
  fired_tried := by simp
  fired_use := by simp
  tried_use := by simp

theorem wellFormed (h : Expansion span grammars start p fired) : p.span.forest.WellFormed :=
  h.grows.wellFormed

/-- The tail of a link is a node of the forest. -/
theorem link_tail_lt (h : Expansion span grammars start p fired) {head tail : NodeId}
    (link : (head, tail) ∈ p.links) : tail < p.span.forest.graph.nodes.size := by
  rw [h.links, List.mem_reverse, List.mem_map] at link
  obtain ⟨x, member, same⟩ := link
  obtain ⟨-, -, ⟨labels, -, found⟩, -⟩ := unaryUse?_eq_some_iff.1 (h.fired_use x member).2
  rw [show tail = x.2.tail from (Prod.mk.inj same).2.symm]
  exact h.wellFormed.lt_size found

/-- A rule that was tried has its head on the span. -/
theorem head_mem (h : Expansion span grammars start p fired) {o : Nat × Nat} {g : Grammar}
    {r : Rule} (tried : o ∈ p.tried) (registered : (o, g, r) ∈ unaryRules grammars) :
    r.head ∈ p.span.fresh := by
  obtain ⟨g', r', u, registered', use, -⟩ := h.tried_use o tried
  obtain ⟨rfl, rfl⟩ := unaryRules_unique registered registered'
  rw [h.tracks, (unaryUse?_eq_some_iff.1 use).2.2.2]
  rfl

theorem of_cycle (h : Expansion span grammars start p fired) {o : Nat × Nat} {g : Grammar}
    {r : Rule} {u : UnaryUse} (registered : (o, g, r) ∈ unaryRules grammars)
    (use : unaryUse? p.span.forest.chart span g r = some u)
    (cycle : Leads p.links u.tail u.head) :
    Expansion span grammars start { p with tried := o :: p.tried } fired :=
  { h with
    fired_tried := fun x member => List.mem_cons_of_mem _ (h.fired_tried x member)
    tried_use := by
      intro o' member
      rcases List.mem_cons.1 member with rfl | old
      · exact ⟨g, r, u, registered, use, .inr cycle⟩
      · exact h.tried_use o' old }

/-- No link leads to a node that is only about to be added. -/
theorem not_leads_new (h : Expansion span grammars start p fired) {tail : NodeId}
    (old : tail < p.span.forest.graph.nodes.size) :
    ¬ Leads p.links tail p.span.forest.graph.nodes.size := by
  intro path
  rcases ReflTransGen.cases_tail path with same | ⟨b, -, link⟩
  · exact Nat.ne_of_lt old same.symm
  · exact Nat.lt_irrefl _ (h.link_tail_lt link)

/-- A head without a node so far gets a new one, so a use that no old head forbids is free. -/
theorem not_leads_head (h : Expansion span grammars start p fired) {labels above : Labels}
    {tail : NodeId} (found : p.span.forest.chart.find? span labels = some tail)
    (guard : ∀ head, p.span.forest.chart.find? span above = some head →
      ¬ Leads p.links tail head) :
    ¬ Leads p.links tail
      ((p.span.forest.chart.find? span above).getD p.span.forest.graph.nodes.size) := by
  cases present : p.span.forest.chart.find? span above with
  | none => exact h.not_leads_new (h.wellFormed.lt_size found)
  | some head => exact guard head present

/-- The tuples on the span are reached from those at the start, the head of a use included. -/
theorem rewrites_head (h : Expansion span grammars start p fired) {o : Nat × Nat} {g : Grammar}
    {r : Rule} {labels : Labels} (registered : (o, g, r) ∈ unaryRules grammars)
    (tailed : UnaryRules.tail? r = some labels) (present : labels ∈ p.span.fresh) :
    ∃ l ∈ start.fresh, ReflTransGen (Rewrites grammars) l r.head := by
  obtain ⟨first, member, path⟩ := h.rewrites labels present
  obtain ⟨hg, hr⟩ := mem_unaryRules.1 registered
  exact ⟨first, member, path.tail
    ⟨g, List.mem_of_getElem? hg, r, List.mem_of_getElem? hr, tailed, rfl⟩⟩

/-- A use of a rule that was not tried before comes last among those that were used. -/
theorem of_use (h : Expansion span grammars start p fired) {o : Nat × Nat} {u : UnaryUse}
    {labels : Labels} (untried : o ∉ p.tried)
    (registered : (o, u.grammar, u.rule) ∈ unaryRules grammars)
    (tailed : UnaryRules.tail? u.rule = some labels)
    (found : p.span.forest.chart.find? span labels = some u.tail)
    (head_found : (p.span.apply span u.application).forest.chart.find? span u.rule.head =
      some u.head) (free : ¬ Leads p.links u.tail u.head) :
    Expansion span grammars start
      { span := p.span.apply span u.application
        tried := o :: p.tried
        links := u.link :: p.links } (fired ++ [(o, u)]) := by
  have grounded : u.application.Grounded p.span.forest.chart := by
    simpa [Application.Grounded, UnaryUse.application] using ⟨span, labels, found⟩
  have step := SpanProgress.apply_grows h.wellFormed span grounded
  have tracks := SpanProgress.apply_tracks h.wellFormed h.tracks grounded
  have use : unaryUse? (p.span.apply span u.application).forest.chart span u.grammar u.rule =
      some u :=
    unaryUse?_eq_some_iff.2 ⟨rfl, rfl, ⟨labels, tailed, step.find?_of found⟩, head_found⟩
  constructor
  case grows => simpa using h.grows.trans step
  case tracks => exact tracks
  case short =>
    calc (p.span.apply span u.application).fresh.length ≤ p.span.fresh.length + 1 :=
        (SpanProgress.fresh_apply ..).2
      _ ≤ start.fresh.length + fired.length + 1 := Nat.succ_le_succ h.short
      _ = _ := by rw [List.length_append, List.length_singleton, Nat.add_assoc]
  case rewrites =>
    intro l member
    rw [tracks, step.isSome_iff, ← h.tracks] at member
    simp only [List.mem_singleton, exists_eq_left] at member
    rcases member with old | ⟨-, rfl⟩
    · exact h.rewrites l old
    · exact h.rewrites_head registered tailed ((h.tracks labels).2 (by rw [found]; rfl))
  case links => simp [h.links]
  case acyclic => exact h.acyclic.cons free
  case nodup =>
    rw [List.map_append, List.map_singleton, List.nodup_append]
    refine ⟨h.nodup, List.nodup_singleton _, fun x old y new same => ?_⟩
    obtain ⟨z, member, rfl⟩ := List.mem_map.1 old
    rw [List.mem_singleton.1 new] at same
    have tried := h.fired_tried z member
    rw [same] at tried
    exact untried tried
  case fired_tried =>
    intro x member
    rcases List.mem_append.1 member with old | new
    · exact List.mem_cons_of_mem _ (h.fired_tried x old)
    · rw [List.mem_singleton.1 new]
      exact List.mem_cons_self
  case fired_use =>
    intro x member
    rcases List.mem_append.1 member with old | new
    · exact ⟨(h.fired_use x old).1, unaryUse?_mono step (h.fired_use x old).2⟩
    · rw [List.mem_singleton.1 new]
      exact ⟨registered, use⟩
  case tried_use =>
    intro o' member
    rcases List.mem_cons.1 member with rfl | old
    · exact ⟨_, _, u, registered, use, .inl (List.mem_append_right _ List.mem_cons_self)⟩
    · obtain ⟨g', r', u', registered', use', how⟩ := h.tried_use o' old
      refine ⟨g', r', u', registered', unaryUse?_mono step use', ?_⟩
      exact how.imp (List.mem_append_left _) (·.mono (List.subset_cons_self ..))

theorem of_open (h : Expansion span grammars start p fired) {o : Nat × Nat} {g : Grammar}
    {r : Rule} {labels : Labels} {tail : NodeId} (untried : o ∉ p.tried)
    (registered : (o, g, r) ∈ unaryRules grammars) (tailed : UnaryRules.tail? r = some labels)
    (found : p.span.forest.chart.find? span labels = some tail)
    (guard : ∀ head, p.span.forest.chart.find? span r.head = some head →
      ¬ Leads p.links tail head) :
    ∃ fired', Expansion span grammars start
      { span := p.span.apply span ⟨r, [tail], g.keepSourceText⟩
        tried := o :: p.tried
        links := ((p.span.forest.chart.find? span r.head).getD p.span.forest.graph.nodes.size,
          tail) :: p.links } fired' := by
  have head_found := SpanProgress.find?_head_apply p.span span ⟨r, [tail], g.keepSourceText⟩
  exact ⟨_, h.of_use (u := ⟨g, r, tail, _⟩) untried registered tailed found head_found
    (h.not_leads_head found guard)⟩

/-- An attempt whose tail is on the span keeps the invariant, and its rule was tried after it. -/
theorem attempt (h : Expansion span grammars start p fired) {a : Attempt} {r : Rule}
    (registered : (a.rule, a.grammar, r) ∈ unaryRules grammars)
    (tailed : UnaryRules.tail? r = some a.step.tail) (present : a.step.tail ∈ p.span.fresh) :
    (∃ fired', Expansion span grammars start (p.attempt span a) fired') ∧
      Later p (p.attempt span a) ∧ a.rule ∈ (p.attempt span a).tried := by
  by_cases untried : a.rule ∈ p.tried
  · rw [attempt_of_tried untried]
    exact ⟨⟨fired, h⟩, .refl p, untried⟩
  have stored := (mem_unaryRules.1 registered).2
  obtain ⟨tail, found⟩ := Option.isSome_iff_exists.1 ((h.tracks _).1 present)
  by_cases cycle : ∃ head, p.span.forest.chart.find? span r.head = some head ∧
      Leads p.links tail head
  · obtain ⟨head, head_found, cycle⟩ := cycle
    rw [attempt_of_cycle untried stored found head_found cycle]
    have use : unaryUse? p.span.forest.chart span a.grammar r = some ⟨a.grammar, r, tail, head⟩ :=
      unaryUse?_eq_some_iff.2 ⟨rfl, rfl, ⟨_, tailed, found⟩, head_found⟩
    exact ⟨⟨fired, h.of_cycle registered use cycle⟩,
      ⟨List.subset_cons_self .., List.prefix_refl _⟩, List.mem_cons_self⟩
  · have guard : ∀ head, p.span.forest.chart.find? span r.head = some head →
        ¬ Leads p.links tail head := fun head head_found path =>
      cycle ⟨head, head_found, path⟩
    rw [attempt_of_open untried stored found guard]
    exact ⟨h.of_open untried registered tailed found guard,
      ⟨List.subset_cons_self .., (SpanProgress.fresh_apply ..).1⟩, List.mem_cons_self⟩

end Expansion

/-- Whenever the worklist comes to an attempt, the rule is there and its tail has a node. -/
def Supplied (span : Span) : UnaryProgress → List Attempt → Prop
  | _, [] => True
  | p, a :: as => (∃ rule tail, a.grammar.unaries[a.step.rule]? = some rule ∧
      p.span.forest.chart.find? span a.step.tail = some tail) ∧ Supplied span (p.attempt span a) as

theorem Supplied.append {p : UnaryProgress} {as bs : List Attempt} (h : Supplied span p as)
    (h' : Supplied span (as.foldl (attempt span) p) bs) : Supplied span p (as ++ bs) := by
  induction as generalizing p with
  | nil => exact h'
  | cons a as ih => exact ⟨h.1, ih h.2 h'⟩

theorem Supplied.at {p : UnaryProgress} {before after : List Attempt} {a : Attempt}
    (h : Supplied span p (before ++ a :: after)) :
    ∃ rule tail, a.grammar.unaries[a.step.rule]? = some rule ∧
      (before.foldl (attempt span) p).span.forest.chart.find? span a.step.tail = some tail := by
  induction before generalizing p with
  | nil => exact h.1
  | cons b before ih => exact ih h.2

/-- Some attempts were made with all their tails at hand, and the invariant holds after them. -/
structure Worked (span : Span) (grammars : List Grammar) (start : SpanProgress)
    (p : UnaryProgress) (as : List Attempt) : Prop where
  expansion : ∃ fired, Expansion span grammars start (as.foldl (attempt span) p) fired
  later : Later p (as.foldl (attempt span) p)
  supplied : Supplied span p as
  tried : ∀ a ∈ as, a.rule ∈ (as.foldl (attempt span) p).tried

namespace Worked

variable {p : UnaryProgress} {as bs : List Attempt}

theorem nil {fired : List ((Nat × Nat) × UnaryUse)}
    (h : Expansion span grammars start p fired) : Worked span grammars start p [] :=
  ⟨⟨fired, h⟩, .refl p, trivial, by simp⟩

theorem append (h : Worked span grammars start p as)
    (h' : Worked span grammars start (as.foldl (attempt span) p) bs) :
    Worked span grammars start p (as ++ bs) where
  expansion := by
    rw [List.foldl_append]
    exact h'.expansion
  later := by
    rw [List.foldl_append]
    exact h.later.trans h'.later
  supplied := h.supplied.append h'.supplied
  tried a member := by
    rw [List.foldl_append]
    rcases List.mem_append.1 member with first | second
    · exact h'.later.tried (h.tried a first)
    · exact h'.tried a second

end Worked

namespace Expansion

variable {p : UnaryProgress} {fired : List ((Nat × Nat) × UnaryUse)}

/-- The steps of a closure find their tails, because each is known from the start or is the head
of a rule that was tried before. -/
theorem closure (h : Expansion span grammars start p fired) {place : Nat} {g : Grammar}
    (registered : grammars[place]? = some g) {known : List Labels} {steps : List UnaryStep}
    (chained : g.unaries.Chained known steps) (known_fresh : known ⊆ p.span.fresh) :
    Worked span grammars start p (steps.map (⟨place, g, ·⟩)) := by
  induction steps generalizing p fired known with
  | nil => exact .nil h
  | cons step steps ih =>
      obtain ⟨tail_known, rule, stored, tailed, rest⟩ := chained
      have rule_mem : ((place, step.rule), g, rule) ∈ unaryRules grammars :=
        mem_unaryRules.2 ⟨registered, stored⟩
      have tail_mem := known_fresh tail_known
      obtain ⟨⟨fired', h'⟩, later, tried⟩ :=
        h.attempt (a := ⟨place, g, step⟩) rule_mem tailed tail_mem
      obtain ⟨tail, found⟩ := Option.isSome_iff_exists.1 ((h.tracks _).1 tail_mem)
      have first : Worked span grammars start p [⟨place, g, step⟩] :=
        ⟨⟨fired', h'⟩, later, ⟨⟨rule, tail, stored, found⟩, trivial⟩, by simpa using tried⟩
      refine first.append (ih h' rest fun l member => ?_)
      rcases List.mem_cons.1 member with rfl | old
      · exact h'.head_mem tried rule_mem
      · exact later.fresh.subset (known_fresh old)

/-- One round of the worklist: the closures of a tuple on the span, grammar by grammar. -/
theorem round (h : Expansion span grammars start p fired) {labels : Labels}
    (present : labels ∈ p.span.fresh) :
    Worked span grammars start p (attempts grammars labels) := by
  have places : ∀ x ∈ grammars.zipIdx, grammars[x.2]? = some x.1 := fun x member =>
    List.mem_zipIdx_iff_getElem?.1 member
  rw [attempts]
  generalize grammars.zipIdx = registered at places
  induction registered generalizing p fired with
  | nil => exact .nil h
  | cons x registered ih =>
      have first := h.closure (places x List.mem_cons_self)
        (UnaryRules.chained_closure labels) (by simpa using present)
      obtain ⟨fired', h'⟩ := first.expansion
      exact first.append (ih h' (first.later.fresh.subset present)
        fun y member => places y (List.mem_cons_of_mem _ member))

end Expansion

end UnaryProgress

end PackedForest
