import PackedForest.Proofs.Forest.Twins
import PackedForest.Proofs.Parser.Filling

/-!
# What a window sees of its sentence

A sentence and a window of it are parsed side by side. On a span of the window both runs do the
same: the walks come to the same rules with twins for tails, and the worklist takes up the same
tuples in the same order, tries the same rules, and has the same cycles to avoid. On the other spans
of the sentence nothing happens to the window.

So the two forests are the same on the window (`Parser.parse_local`), although their nodes and edges
have other numbers and came in another order.
-/

namespace PackedForest

open Reachability (Leads reaches reaches_eq_true_iff)

/-- Matches of the same rule with corresponding tails. -/
structure Match.Alike (R : NodeId → NodeId → Prop) (m m' : Match) : Prop where
  rule : m.rule = m'.rule
  tails : List.Forall₂ R m.tails m'.tails

/-- Charts with corresponding nodes over the narrower pieces of a span, where the pieces in the
first chart are moved on by an offset. -/
def Chart.AlikeBelow (R : NodeId → NodeId → Prop) (offset : Nat) (span : Span)
    (chart chart' : Chart) : Prop :=
  ∀ piece : Span, piece.Within span → piece ≠ span → ∀ labels,
    Option.Rel R (chart.find? (piece.shift offset) labels) (chart'.find? piece labels)

section Matching

variable {R : NodeId → NodeId → Prop} {chart chart' : Chart} {offset start stop : Nat}

theorem Match.through_alike (alike : Chart.AlikeBelow R offset ⟨start, stop⟩ chart chart')
    {t : Trie} {pos : Nat} {words : List WordId} (first : start ≤ pos)
    (last : pos + words.length = stop) :
    List.Forall₂ (Match.Alike R) (through chart (offset + start) t (offset + pos) words)
      (through chart' start t pos words) := by
  induction size : words.length using Nat.strong_induction_on generalizing t pos words with
  | _ size ih =>
      subst size
      cases words with
      | nil =>
          rw [through, through, List.forall₂_map_left_iff, List.forall₂_map_right_iff,
            List.forall₂_same]
          exact fun r _ => ⟨rfl, .nil⟩
      | cons word words =>
          rw [List.length_cons] at last
          rw [through, through]
          apply List.rel_append
          · cases t.child? (.word word) with
            | none => exact .nil
            | some child =>
                exact @ih _ (Nat.lt_succ_self _) child (pos + 1) words (by omega) (by omega) rfl
          · simp only [Nat.add_left_cancel_iff]
            refine forall₂_flatMap_same fun branch _ => forall₂_flatMap_same fun more narrow => ?_
            obtain ⟨inside, proper⟩ := piece_within first (List.mem_range.1 narrow)
            rw [last] at inside proper
            have bound := inside.2
            dsimp only at bound
            have pieces := alike _ inside proper branch.1
            rw [show (⟨pos, pos + more + 1⟩ : Span).shift offset =
              ⟨offset + pos, offset + pos + more + 1⟩ by simp only [Span.shift, Nat.add_assoc]]
              at pieces
            generalize chart.find? _ branch.1 = there, chart'.find? _ branch.1 = here at pieces ⊢
            cases pieces with
            | none => exact .nil
            | some twins =>
                rw [List.forall₂_map_left_iff, List.forall₂_map_right_iff]
                have rest := @ih _ length_drop_lt branch.2 (pos + more + 1) (words.drop more)
                  (by omega) (by rw [List.length_drop]; omega) rfl
                rw [← Nat.add_assoc, ← Nat.add_assoc] at rest
                exact rest.imp fun m m' same => ⟨same.rule, .cons twins same.tails⟩

theorem Parser.applications_alike (p : Parser)
    (alike : Chart.AlikeBelow R offset ⟨start, stop⟩ chart chart') {words : List WordId}
    (last : start + words.length = stop) :
    List.Forall₂ (Application.Alike R) (p.applications chart (offset + start) words)
      (p.applications chart' start words) := by
  have matching : List.Forall₂ (Application.Alike R) (p.matching chart (offset + start) words)
      (p.matching chart' start words) := by
    refine forall₂_flatMap_same fun g _ => ?_
    rw [List.forall₂_map_left_iff, List.forall₂_map_right_iff, Grammar.matching, Grammar.matching]
    split
    · exact (Match.through_alike alike (Nat.le_refl _) last).imp
        fun m m' same => ⟨same.rule, same.tails, rfl⟩
    · exact .nil
  unfold applications
  generalize p.matching chart (offset + start) words = found,
    p.matching chart' start words = found' at matching ⊢
  cases matching with
  | nil =>
      split
      · split
        · exact .nil
        · exact .cons ⟨rfl, .nil, rfl⟩ .nil
      · exact .nil
  | cons first rest => exact .cons first rest

end Matching

variable {offset size : Nat} {span : Span}

namespace SpanProgress

/-- The head of an application is new to the span unless there is such a node already. -/
theorem fresh_apply_eq (p : SpanProgress) (span : Span) (a : Application) :
    (apply span p a).fresh =
      if (p.forest.chart.find? span a.rule.head).isSome then p.fresh
      else p.fresh ++ [a.rule.head] := by
  cases found : p.forest.chart.find? span a.rule.head with
  | none => simp [apply, Forest.findOrAdd, found]
  | some id => simp [apply, Forest.findOrAdd, found]

/-- Two spans are filled alike: the forests are the same on the window, and so are the tuples that
are new on the span. -/
structure Local (offset size : Nat) (p q : SpanProgress) : Prop where
  forest : p.forest.Local offset size q.forest
  fresh : p.fresh = q.fresh

/-- The twins of two states of the forests. -/
abbrev Twins (offset size : Nat) (p q : SpanProgress) : NodeId → NodeId → Prop :=
  Forest.Twins offset size p.forest q.forest

variable {p q : SpanProgress} (h : p.Local offset size q) (inside : span.stop ≤ size)

include h inside

/-- Applying a rule to twins keeps the forests alike, and the nodes that are twins. -/
theorem Local.apply {a b : Application} (alike : a.Alike (Twins offset size p q) b) :
    (apply (span.shift offset) p a).Local offset size (apply span q b) ∧
      ∀ x y, Twins offset size p q x y →
        Twins offset size (SpanProgress.apply (span.shift offset) p a)
          (SpanProgress.apply span q b) x y := by
  have grounded : a.Grounded p.forest.chart := by
    intro t filled
    obtain ⟨t', -, span, labels, -, there, -⟩ := exists_of_forall₂_left alike.tails filled
    exact ⟨_, labels, there⟩
  have grounded' : b.Grounded q.forest.chart := by
    intro t filled
    obtain ⟨t', -, span, labels, -, -, here⟩ :=
      exists_of_forall₂_left (List.Forall₂.flip (R := flip _) alike.tails) filled
    exact ⟨span, labels, here⟩
  have whole := apply_grows h.forest.whole (span.shift offset) grounded
  have part := apply_grows h.forest.part span grounded'
  refine ⟨⟨h.forest.grow inside whole part alike, ?_⟩, Forest.Local.twins_mono whole part⟩
  rw [fresh_apply_eq, fresh_apply_eq, h.fresh, alike.rule,
    Bool.eq_iff_iff.2 (h.forest.isSome_iff inside)]

theorem Local.foldl_apply {as bs : List Application}
    (alike : List.Forall₂ (Application.Alike (Twins offset size p q)) as bs) :
    (as.foldl (SpanProgress.apply (span.shift offset)) p).Local offset size
      (bs.foldl (SpanProgress.apply span) q) := by
  induction as generalizing bs p q with
  | nil =>
      cases alike
      exact h
  | cons a as ih =>
      cases alike with
      | cons first rest =>
          obtain ⟨next, mono⟩ := h.apply inside first
          exact ih next (rest.imp fun _ _ same => same.mono mono)

end SpanProgress

namespace UnaryProgress

/-- Two worklists stand alike. -/
structure Local (offset size : Nat) (p q : UnaryProgress) : Prop where
  span : p.span.Local offset size q.span
  tried : p.tried = q.tried
  links : List.Forall₂ (fun x y => p.span.Twins offset size q.span x.1 y.1 ∧
    p.span.Twins offset size q.span x.2 y.2) p.links q.links

namespace Local

variable {p q : UnaryProgress} (h : p.Local offset size q)

include h

/-- Links lead from one node to another if they do so from twin to twin. -/
theorem reaches_eq {a b a' b' : NodeId} (start : p.span.Twins offset size q.span a a')
    (target : p.span.Twins offset size q.span b b') :
    reaches p.links a b = reaches q.links a' b' := by
  rw [Bool.eq_iff_iff, reaches_eq_true_iff, reaches_eq_true_iff]
  constructor
  · intro path
    obtain ⟨c, twins, path'⟩ := path.transfer
      (fun _ listed => exists_of_forall₂_left h.links listed)
      (Forest.Twins.right_unique h.span.forest.whole) start
    cases Forest.Twins.right_unique h.span.forest.whole twins target
    exact path'
  · intro path'
    obtain ⟨c, twins, path⟩ := path'.transfer (R := flip (p.span.Twins offset size q.span))
      (fun _ listed => exists_of_forall₂_left (List.Forall₂.flip (R := flip _) h.links) listed)
      (Forest.Twins.left_unique h.span.forest.part) start
    cases Forest.Twins.left_unique h.span.forest.part twins target
    exact path

theorem mono {p' q' : SpanProgress} (more : ∀ a b, p.span.Twins offset size q.span a b →
      p'.Twins offset size q' a b) :
    List.Forall₂ (fun x y => p'.Twins offset size q' x.1 y.1 ∧ p'.Twins offset size q' x.2 y.2)
      p.links q.links :=
  h.links.imp fun _ _ both => ⟨more _ _ both.1, more _ _ both.2⟩

variable (inside : span.stop ≤ size)

include inside

/-- A use of a rule over twins, and the links to them. -/
theorem use {r : Rule} {tail tail' : NodeId} (keep : Bool) (tried : List (Nat × Nat))
    (twins : p.span.Twins offset size q.span tail tail') :
    UnaryProgress.Local offset size
      { span := p.span.apply (span.shift offset) ⟨r, [tail], keep⟩
        tried
        links := ((p.span.forest.chart.find? (span.shift offset) r.head).getD
          p.span.forest.graph.nodes.size, tail) :: p.links }
      { span := q.span.apply span ⟨r, [tail'], keep⟩
        tried
        links := ((q.span.forest.chart.find? span r.head).getD q.span.forest.graph.nodes.size,
          tail') :: q.links } := by
  have alike : Application.Alike (p.span.Twins offset size q.span) ⟨r, [tail], keep⟩
      ⟨r, [tail'], keep⟩ := ⟨rfl, .cons twins .nil, rfl⟩
  obtain ⟨next, mono⟩ := h.span.apply inside alike
  refine ⟨next, rfl, .cons ⟨?_, mono _ _ twins⟩ (h.mono mono)⟩
  exact ⟨span, r.head, inside, SpanProgress.find?_head_apply p.span _ ⟨r, [tail], keep⟩,
    SpanProgress.find?_head_apply q.span _ ⟨r, [tail'], keep⟩⟩

/-- Both worklists take the same step. -/
theorem apply (place : Nat) (g : Grammar) (step : UnaryStep) :
    (p.apply (span.shift offset) place g step).Local offset size
      (q.apply span place g step) := by
  unfold UnaryProgress.apply
  rw [h.tried]
  by_cases tried : (place, step.rule) ∈ q.tried
  · rw [if_pos tried, if_pos tried]
    exact h
  · rw [if_neg tried, if_neg tried]
    dsimp only
    have passed : UnaryProgress.Local offset size
        { p with tried := (place, step.rule) :: q.tried }
        { q with tried := (place, step.rule) :: q.tried } := ⟨h.span, rfl, h.links⟩
    cases g.unaries[step.rule]? with
    | none => exact passed
    | some r =>
        have tails := h.span.forest.find?_rel inside step.tail
        generalize p.span.forest.chart.find? (span.shift offset) step.tail = tail?,
          q.span.forest.chart.find? span step.tail = tail?' at tails ⊢
        cases tails with
        | none => exact passed
        | @some tail tail' twins =>
            dsimp only
            have guard : (p.span.forest.chart.find? (span.shift offset) r.head).any
                  (reaches p.links tail) =
                (q.span.forest.chart.find? span r.head).any (reaches q.links tail') := by
              have heads := h.span.forest.find?_rel inside r.head
              generalize p.span.forest.chart.find? (span.shift offset) r.head = head?,
                q.span.forest.chart.find? span r.head = head?' at heads ⊢
              cases heads with
              | none => rfl
              | some heads => exact h.reaches_eq twins heads
            rw [guard]
            split
            · exact passed
            · exact h.use inside g.keepSourceText _ twins

theorem applyClosures (grammars : List Grammar) (labels : Labels) :
    (p.applyClosures (span.shift offset) grammars labels).Local offset size
      (q.applyClosures span grammars labels) := by
  unfold UnaryProgress.applyClosures
  refine List.foldl_rel h fun x _ p q h => ?_
  exact List.foldl_rel h fun step _ p q h => h.apply inside x.2 x.1 step

theorem run (grammars : List Grammar) (fuel place : Nat) :
    (run (span.shift offset) grammars fuel place p).Local offset size
      (run span grammars fuel place q) := by
  induction fuel generalizing place p q with
  | zero => exact h
  | succ fuel ih =>
      rw [UnaryProgress.run, UnaryProgress.run, h.span.fresh]
      cases q.span.fresh[place]? with
      | none => exact h
      | some labels => exact ih (h.applyClosures inside grammars labels) (place + 1)

end Local

end UnaryProgress

/-- Both runs of the worklist end alike. -/
theorem SpanProgress.Local.applyUnaries {p q : SpanProgress} (h : p.Local offset size q)
    (inside : span.stop ≤ size) (grammars : List Grammar) :
    (p.applyUnaries (span.shift offset) grammars).Local offset size
      (q.applyUnaries span grammars) := by
  have start : UnaryProgress.Local offset size ⟨p, [], []⟩ ⟨q, [], []⟩ := ⟨h, rfl, .nil⟩
  unfold SpanProgress.applyUnaries
  rw [h.fresh]
  exact (start.run inside grammars _ 0).span

namespace Parser

variable (p : Parser) {before middle after : List WordId} {f g : Forest}

/-- The words of a span, as the sentence has them and as the window has them. -/
theorem words_shift (inside : span.stop ≤ middle.length) :
    ((before ++ middle ++ after).drop (before.length + span.start)).take
        (span.stop - span.start) =
      (middle.drop span.start).take (span.stop - span.start) := by
  rw [List.append_assoc, List.drop_append, List.drop_eq_nil_of_le (Nat.le_add_right _ _),
    List.nil_append, Nat.add_sub_cancel_left]
  by_cases some_left : span.start ≤ middle.length
  · rw [List.drop_append_of_le_length some_left, List.take_append_of_le_length]
    rw [List.length_drop]
    omega
  · rw [show span.stop - span.start = 0 by omega, List.take_zero, List.take_zero]

theorem fillSpan_local (h : f.Local before.length middle.length g)
    (known : span ∈ Span.upTo middle.length) :
    (p.fillSpan (before ++ middle ++ after) f (span.shift before.length)).Local before.length
      middle.length (p.fillSpan middle g span) := by
  obtain ⟨nonempty, inside⟩ := Span.mem_upTo.1 known
  have below : Chart.AlikeBelow (Forest.Twins before.length middle.length f g) before.length
      span f.chart g.chart := fun piece inner _ labels =>
    h.find?_rel (Nat.le_trans inner.2 inside) labels
  have found : List.Forall₂ (Application.Alike (Forest.Twins before.length middle.length f g))
      (p.found (before ++ middle ++ after) f.chart (span.shift before.length))
      (p.found middle g.chart span) := by
    unfold Parser.found
    rw [Span.shift_start, Span.shift_stop, Nat.add_sub_add_left, words_shift inside]
    exact p.applications_alike below (start_add_length_words known)
  have start : SpanProgress.Local before.length middle.length ⟨f, []⟩ ⟨g, []⟩ := ⟨h, rfl⟩
  exact ((start.foldl_apply inside found).applyUnaries inside p.grammars).forest

/-- Filling the spans of the sentence in order, and meanwhile those of the window. What is filled
outside the window leaves no trace in it. -/
theorem foldl_fillSpan_local (h : f.Local before.length middle.length g) {spans spans' : List Span}
    (known : ∀ s ∈ spans, s ∈ Span.upTo (before ++ middle ++ after).length)
    (new : ∀ s ∈ spans, ∀ labels, f.chart.find? s labels = none)
    (order : spans.Pairwise fun s t => ¬ t.Within s)
    (known' : ∀ s ∈ spans', s ∈ Span.upTo middle.length)
    (window : spans.filter (fun s => s.Inside before.length middle.length) =
      spans'.map (Span.shift before.length)) :
    (spans.foldl (p.fillSpan (before ++ middle ++ after)) f).Local before.length middle.length
      (spans'.foldl (p.fillSpan middle) g) := by
  induction spans generalizing f g spans' with
  | nil =>
      obtain rfl := List.map_eq_nil_iff.1 window.symm
      exact h
  | cons span spans ih =>
      obtain ⟨apart, order_later⟩ := List.pairwise_cons.1 order
      obtain ⟨known_here, known_later⟩ := List.forall_mem_cons.1 known
      obtain ⟨new_here, new_later⟩ := List.forall_mem_cons.1 new
      obtain ⟨x, rfl, grows, -⟩ := p.fillSpan_filled _ h.whole known_here new_here
      have still_new : ∀ s ∈ spans, ∀ labels,
          (p.fillSpan (before ++ middle ++ after) f x.span).chart.find? s labels = none := by
        intro s member labels
        rw [x.find?_eq grows (fun same => apart s member (same ▸ .refl _)), new_later s member]
      -- A span of the window is filled in both runs, any other one in the sentence only.
      by_cases inside : x.span.Inside before.length middle.length
      · rw [List.filter_cons, if_pos (decide_eq_true inside)] at window
        cases spans' with
        | nil => cases window
        | cons s spans' =>
            obtain ⟨known_s, known_rest⟩ := List.forall_mem_cons.1 known'
            obtain ⟨same, rest⟩ := List.cons.inj window
            have filled := @fillSpan_local _ p before middle after _ _ h known_s
            rw [← same] at filled
            exact ih filled known_later still_new order_later known_rest rest
      · rw [List.filter_cons, if_neg (mt of_decide_eq_true inside)] at window
        refine ih (h.outside grows fun y placed s within same => inside ?_) known_later still_new
          order_later known' window
        rw [← x.span_of_placed placed, same, Span.inside_shift]
        exact within

/-- On the window the forest of the sentence is that of the window alone. -/
theorem parse_local (p : Parser) (before middle after : List WordId) :
    (p.parse (before ++ middle ++ after)).Local before.length middle.length
      (p.parse middle) := by
  refine p.foldl_fillSpan_local (.empty ..) (fun _ member => member) (fun _ _ _ => ?_)
    (Span.pairwise_upTo _) (fun _ member => member) (Span.upTo_filter_inside ?_)
  · simp [Chart.find?]
  · rw [List.length_append, List.length_append]
    exact Nat.le_add_right _ _

end Parser

end PackedForest
