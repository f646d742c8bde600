import Mathlib.Data.List.Dedup
import Mathlib.Data.List.ProdSigma
import PackedForest.Proofs.Parser.Numbering
import PackedForest.Proofs.Span.Compositions

/-!
# The size of a forest

A forest stays small, however many derivations it packs. Its nodes are told apart by span and label
tuple, and every tuple is the head of some rule or that of unknown words. Its edges are told apart
by span and choice: `Parser.Credits` gives every edge of a forest a choice that made it, none twice
on a span. Cyclic unary rules only take some choices away.

A rule that is there twice makes two choices, but of one occurrence of a rule the choices on a span
differ in their cuts alone, of which there are no more than `Rule.ways`. So the numbers of nodes
and edges are bounded by polynomials in the length of the sentence, the degree of which depends on
the largest number of gaps in a rule (`Parser.LoadedFrom.size_bounded`).
-/

namespace PackedForest

theorem Span.nodup_upTo (size : Nat) : (Span.upTo size).Nodup := by
  refine (Span.pairwise_upTo size).imp fun {s t} apart => ?_
  rintro rfl
  exact apart (.refl _)

theorem Span.length_upTo (size : Nat) : (Span.upTo size).length = size * (size + 1) / 2 := by
  have twice : (Span.upTo size).length * 2 = size * (size + 1) := by
    induction size with
    | zero => rfl
    | succ size ih =>
        have wider : (Span.upTo (size + 1)).length = size + 1 + (Span.upTo size).length := by
          simp only [upTo, List.length_flatMap, List.length_map, List.length_range,
            List.range_succ_eq_map, List.map_cons, List.map_map, List.sum_cons, Function.comp_def,
            Nat.sub_zero, Nat.succ_eq_add_one, Nat.add_sub_add_right]
        rw [wider, Nat.add_mul, ih, Nat.mul_comm size, ← Nat.mul_add, Nat.add_comm 2]
  omega

/-- Entries of which none makes more than another makes no more than the other all together. -/
theorem subperm_flatMap {α β : Type} {as : List α} {f g : α → List β}
    (fewer : ∀ a ∈ as, (f a).Subperm (g a)) : (as.flatMap f).Subperm (as.flatMap g) := by
  induction as with
  | nil => exact .refl _
  | cons a as ih =>
      obtain ⟨here, later⟩ := List.forall_mem_cons.1 fewer
      exact here.append (ih later)

/-- Some of what comes of entries comes of some of the entries. -/
theorem exists_subperm_of_map {α β : Type} {f : α → β} {bs : List β} {as : List α}
    (fewer : bs.Subperm (as.map f)) : ∃ as' : List α, as'.Subperm as ∧ as'.map f = bs := by
  obtain ⟨bs', perm, kept⟩ := fewer
  obtain ⟨kept', sublist, rfl⟩ := List.sublist_map_iff.1 kept
  obtain ⟨as', perm', same⟩ := exists_perm_of_map perm.symm
  exact ⟨as', ⟨kept', perm'.symm, sublist⟩, same⟩

/-- Entries that are told by a key and more are no more than the keys times what one key has. -/
theorem length_le_of_keys {α β : Type} [DecidableEq β] {as : List α} (apart : as.Nodup)
    (key : α → β) {keys : List β} {bound : Nat} (known : ∀ a ∈ as, key a ∈ keys)
    (few : ∀ b ∈ keys, (as.filter (key · = b)).length ≤ bound) :
    as.length ≤ keys.length * bound := by
  refine (apart.subperm fun a member => ?_).length_le.trans (length_flatMap_le few)
  exact List.mem_flatMap.2 ⟨key a, known a member, List.mem_filter.2 ⟨member, decide_eq_true rfl⟩⟩

namespace Choice

/-- The place of the rule of a choice: that of its table, and that in the table. No rule passes a
word through. -/
def origin? : Choice → Option (Nat × Nat)
  | rule table place _ => some (table, place)
  | unary table place => some (table, place)
  | unknown => none

/-- The cut that a choice makes of the span. -/
def pieces : Choice → List Span
  | rule _ _ pieces => pieces
  | unary _ _ => []
  | unknown => []

end Choice

namespace Parser

variable {p : Parser} {tables : List RuleTable} {sentence : List WordId} {fills : List Fill}

/-- A choice made an edge over a span: by its rule, between the nodes of the keys it asks for. -/
def MadeBy (p : Parser) (tables : List RuleTable) (sentence : List WordId)
    (credit : Span × Choice) (e : Edge) : Prop :=
  ∃ r keepSourceText keys,
    credit.2.Applies p tables sentence credit.1 r keepSourceText keys ∧
    (p.parse sentence).chart.find? credit.1 r.head = some e.head ∧
    (p.parse sentence).chart.Finds keys e.tails ∧
    e.unnumbered = (Application.mk r e.tails keepSourceText).edge e.head

/-- A choice with its span for each edge of the forest, none of them twice. -/
structure Credits (p : Parser) (tables : List RuleTable) (sentence : List WordId)
    (credits : List (Span × Choice)) : Prop where
  nodup : credits.Nodup
  made : List.Forall₂ (p.MadeBy tables sentence) credits (p.parse sentence).graph.edges.toList

/-- All choices over all spans of a sentence. -/
def allChoices (p : Parser) (tables : List RuleTable) (sentence : List WordId) :
    List (Span × Choice × Application) :=
  (Span.upTo sentence.length).flatMap fun span =>
    (p.choices tables sentence (p.parse sentence).chart span).map (span, ·)

theorem nodup_allChoices :
    ((p.allChoices tables sentence).map fun y => (y.1, y.2.1)).Nodup := by
  rw [allChoices, List.map_flatMap]
  refine nodup_flatMap_of_key id ?_ (fun span _ => ?_) Prod.fst fun span c listed => ?_
  · rw [List.map_id]
    exact Span.nodup_upTo _
  · have choices := (p.nodup_choices tables sentence (p.parse sentence).chart span).map
      (f := (span, ·)) fun _ _ same => (Prod.mk.inj same).2
    rw [List.map_map] at choices ⊢
    exact choices
  · obtain ⟨y, choice, rfl⟩ := List.mem_map.1 listed
    obtain ⟨_, -, rfl⟩ := List.mem_map.1 choice
    rfl

namespace LoadedFrom

variable (h : p.LoadedFrom tables)

include h

/-- What is applied on a span comes of choices there, of each at most once. -/
theorem placed_subperm (filled : p.Filled sentence fills) {x : Fill} (member : x ∈ fills) :
    (x.found ++ x.uses.map UnaryUse.application).Subperm
      ((p.choices tables sentence (p.parse sentence).chart x.span).map (·.2)) := by
  have found := h.found_perm (filled.span_mem member) (p.parse sentence).chart
  rw [← (filled.sound x member).found] at found
  have uses := (filled.sound x member).uses
  rw [← List.filter_filterMap, List.filterMap_flatMap] at uses
  simp only [List.filterMap_map, Function.comp_def, h.grammars, List.flatMap_map] at uses
  obtain ⟨kept, perm, sublist⟩ := uses.subperm.trans List.filter_sublist.subperm
  rw [p.map_snd_choices, ← List.map_flatMap]
  refine found.subperm.append ⟨kept.map UnaryUse.application, perm.map _, sublist.map _⟩

/-- The edges of the forest come of choices, of each at most once. -/
theorem exists_credits : ∃ credits, p.Credits tables sentence credits := by
  obtain ⟨fills, filled⟩ := p.parse_filled sentence
  have placed : (fills.flatMap Fill.placed).Subperm
      ((p.allChoices tables sentence).map fun y => (y.1, y.2.2)) := by
    rw [allChoices, ← filled.spans, List.flatMap_map, List.map_flatMap]
    refine subperm_flatMap fun x member => ?_
    have here := (placed_subperm h filled member).map (f := (x.span, ·))
      fun _ _ same => (Prod.mk.inj same).2
    rw [Fill.placed]
    rw [List.map_append, List.map_map, List.map_map] at here
    rw [List.map_map]
    exact here
  obtain ⟨chosen, fewer, same⟩ := exists_subperm_of_map placed
  refine ⟨chosen.map fun y => (y.1, y.2.1), ?_, ?_⟩
  · obtain ⟨kept, perm, sublist⟩ := fewer
    exact (perm.map _).nodup_iff.1 (nodup_allChoices.sublist (sublist.map _))
  · have edges := filled.edges
    rw [← same, List.map_map] at edges
    have paired : List.Forall₂ (fun y (e : Edge) =>
        y.2.2.edgeIn? (p.parse sentence).chart y.1 = some e.unnumbered) chosen
        (p.parse sentence).graph.edges.toList := by
      refine List.forall₂_map_right_iff.1 (List.forall₂_map_left_iff.1 ?_)
      rw [List.forall₂_eq_eq_eq, edges]
      rfl
    refine List.forall₂_map_left_iff.2 ((forall₂_mem paired).imp ?_)
    rintro ⟨span, c, a⟩ e ⟨member, -, edge⟩
    obtain ⟨head, head_found, edge⟩ := Option.map_eq_some_iff.1 edge
    obtain rfl : head = e.head := congrArg EdgeRecord.head edge
    obtain ⟨span, -, listed⟩ := List.mem_flatMap.1 (fewer.subset member)
    obtain ⟨_, listed, same⟩ := List.mem_map.1 listed
    cases same
    obtain ⟨keys, applies, found⟩ := (h.mem_choices (by rw [head_found]; rfl)).1 listed
    have tails : a.tails = e.tails := congrArg EdgeRecord.tails edge
    exact ⟨a.rule, a.keepSourceText, keys, applies, head_found, tails ▸ found, tails ▸ edge.symm⟩

end LoadedFrom

namespace Credits

variable {credits : List (Span × Choice)} (h : p.Credits tables sentence credits)

include h

theorem length_eq : credits.length = (p.parse sentence).graph.edges.size := by
  rw [h.made.length_eq, Array.length_toList]

theorem applies {credit : Span × Choice} (member : credit ∈ credits) :
    credit.1 ∈ Span.upTo sentence.length ∧ ∃ r keepSourceText keys,
      credit.2.Applies p tables sentence credit.1 r keepSourceText keys := by
  obtain ⟨e, -, r, keep, keys, applies, found, -⟩ := exists_of_forall₂_left h.made member
  obtain ⟨fills, filled⟩ := p.parse_filled sentence
  exact ⟨filled.span_of_found (by rw [found]; rfl), r, keep, keys, applies⟩

/-- One occurrence of a rule makes no more edges over a span than there are ways to share it out
among the gaps, and a single one if the rule is unary. -/
theorem length_rule_le {table place : Nat} {t : RuleTable} {r : Rule}
    (known : tables[table]? = some t) (stored : t.rules[place]? = some r) (span : Span) :
    (credits.filter fun y => y.1 = span ∧ y.2.origin? = some (table, place)).length ≤
      if r.isUnary then 1 else r.ways (span.stop - span.start) := by
  have here : ∀ y ∈ credits.filter fun y => y.1 = span ∧ y.2.origin? = some (table, place),
      r.isUnary = true ∧ y = (span, .unary table place) ∨
      r.isUnary = false ∧ y = (span, .rule table place y.2.pieces) ∧
        r.source.length = y.2.pieces.length ∧ span.IsCut y.2.pieces ∧
          r.Fits sentence y.2.pieces := by
    rintro ⟨span', c⟩ listed
    obtain ⟨member, same⟩ := List.mem_filter.1 listed
    obtain ⟨rfl, origin⟩ := of_decide_eq_true same
    obtain ⟨-, r', keep, keys, applies⟩ := h.applies member
    cases applies with
    | rule known' stored' several narrow length cut fits =>
        cases origin
        obtain rfl := Option.some.inj (known.symm.trans known')
        obtain rfl := Option.some.inj (stored.symm.trans stored')
        exact .inr ⟨several, rfl, length, cut, fits⟩
    | unary known' stored' single slot =>
        cases origin
        obtain rfl := Option.some.inj (known.symm.trans known')
        obtain rfl := Option.some.inj (stored.symm.trans stored')
        exact .inl ⟨single, rfl⟩
    | unknown => cases origin
  have apart := h.nodup.filter fun y => y.1 = span ∧ y.2.origin? = some (table, place)
  generalize (credits.filter fun y => y.1 = span ∧ y.2.origin? = some (table, place)) = made
    at here apart
  cases unary : r.isUnary with
  | true =>
      have only : made ⊆ [(span, .unary table place)] := by
        intro y member
        rcases here y member with ⟨-, rfl⟩ | ⟨several, -⟩
        · exact List.mem_singleton_self _
        · rw [unary] at several
          cases several
      exact (apart.subperm only).length_le
  | false =>
      have fitting : ∀ y ∈ made, y = (span, .rule table place y.2.pieces) ∧
          r.source.length = y.2.pieces.length ∧ span.IsCut y.2.pieces ∧
            r.Fits sentence y.2.pieces := by
        intro y member
        rcases here y member with ⟨single, -⟩ | ⟨-, fits⟩
        · rw [unary] at single
          cases single
        · exact fits
      have cuts : ∀ pieces ∈ made.map fun y => y.2.pieces, r.source.length = pieces.length ∧
          span.IsCut pieces ∧ r.Fits sentence pieces :=
        List.forall_mem_map.2 fun y member => (fitting y member).2
      have cuts_apart : (made.map fun y => y.2.pieces).Nodup := by
        refine apart.map_on fun y member y' member' same => ?_
        rw [(fitting y member).1, (fitting y' member').1, same]
      rw [← List.length_map fun y : Span × Choice => y.2.pieces]
      exact Rule.length_le_ways cuts_apart cuts

/-- Passing a word through makes no more than one edge, and only on a single word. -/
theorem length_unknown_le (span : Span) :
    (credits.filter fun y => y.1 = span ∧ y.2.origin? = none).length ≤
      if span.stop - span.start = 1 then 1 else 0 := by
  have here : ∀ y ∈ credits.filter fun y => y.1 = span ∧ y.2.origin? = none,
      span.stop - span.start = 1 ∧ y = (span, .unknown) := by
    rintro ⟨span', c⟩ listed
    obtain ⟨member, same⟩ := List.mem_filter.1 listed
    obtain ⟨rfl, origin⟩ := of_decide_eq_true same
    obtain ⟨-, r, keep, keys, applies⟩ := h.applies member
    cases applies with
    | rule => cases origin
    | unary => cases origin
    | @unknown start word => exact ⟨Nat.add_sub_cancel_left start 1, rfl⟩
  have apart := h.nodup.filter fun y => y.1 = span ∧ y.2.origin? = none
  generalize (credits.filter fun y => y.1 = span ∧ y.2.origin? = none) = made at here apart
  split
  · have only : made ⊆ [(span, .unknown)] := fun y member =>
      List.mem_singleton.2 (here y member).2
    exact (apart.subperm only).length_le
  · next wide =>
      refine Nat.le_of_eq (List.length_eq_zero_iff.2 (List.eq_nil_iff_forall_not_mem.2 ?_))
      exact fun y member => wide (here y member).1

end Credits

/-- The heads of all rules. -/
def ruleHeads (tables : List RuleTable) : List Labels :=
  (tables.flatMap (·.rules)).map (·.head)

/-- The largest number of gaps in a rule. -/
def mostGaps (tables : List RuleTable) : Nat :=
  (tables.flatMap (·.rules)).foldr (fun r most => max r.gapCount most) 0

/-- Where an edge may come from: passing a word through, or the rule at one of the places. -/
def origins (tables : List RuleTable) : List (Option (Nat × Nat)) :=
  none :: tables.zipIdx.flatMap fun x => (List.range x.1.rules.length).map fun place =>
    some (x.2, place)

theorem length_origins (tables : List RuleTable) :
    (origins tables).length = (tables.flatMap (·.rules)).length + 1 := by
  have places : (tables.zipIdx.map fun x => x.1.rules.length) =
      tables.map fun t => t.rules.length := by
    conv_rhs => rw [← List.zipIdx_map_fst 0 tables, List.map_map]
    rfl
  rw [origins, List.length_cons, List.length_flatMap, List.length_flatMap]
  simp only [List.length_map, List.length_range]
  rw [places]

theorem mem_origins {table place : Nat} {t : RuleTable} {r : Rule}
    (known : tables[table]? = some t) (stored : t.rules[place]? = some r) :
    some (table, place) ∈ origins tables := by
  refine List.mem_cons_of_mem _ (List.mem_flatMap.2 ⟨(t, table), ?_, ?_⟩)
  · exact List.mem_zipIdx_iff_getElem?.2 known
  · exact List.mem_map_of_mem (List.mem_range.2 (List.getElem?_eq_some_iff.1 stored).1)

theorem exists_rule_of_mem_origins {table place : Nat}
    (listed : some (table, place) ∈ origins tables) :
    ∃ t r, tables[table]? = some t ∧ t.rules[place]? = some r := by
  rcases List.mem_cons.1 listed with same | listed
  · cases same
  · obtain ⟨⟨t, table'⟩, known, listed⟩ := List.mem_flatMap.1 listed
    obtain ⟨place', inside, same⟩ := List.mem_map.1 listed
    cases same
    exact ⟨t, _, List.mem_zipIdx_iff_getElem?.1 known,
      List.getElem?_eq_getElem (List.mem_range.1 inside)⟩

theorem gapCount_le_mostGaps {r : Rule} (member : r ∈ tables.flatMap (·.rules)) :
    r.gapCount ≤ mostGaps tables := by
  unfold mostGaps
  generalize tables.flatMap (·.rules) = rules at member ⊢
  induction rules with
  | nil => cases member
  | cons first rules ih =>
      rw [List.foldr_cons]
      rcases List.mem_cons.1 member with rfl | later
      · exact Nat.le_max_left _ _
      · exact (ih later).trans (Nat.le_max_right _ _)

/-- What a choice builds is the head of a rule, or that of an unknown word. -/
theorem head_mem_of_applies {c : Choice} {span : Span} {r : Rule} {keep : Bool}
    {keys : List (Span × Labels)} (applies : c.Applies p tables sentence span r keep keys) :
    r.head ∈ p.unknownLabels :: (ruleHeads tables).dedup := by
  have in_table : ∀ {table place : Nat} {t : RuleTable} {r : Rule}, tables[table]? = some t →
      t.rules[place]? = some r → r.head ∈ p.unknownLabels :: (ruleHeads tables).dedup := by
    intro table place t r known stored
    refine List.mem_cons_of_mem _ (List.mem_dedup.2 (List.mem_map_of_mem ?_))
    exact List.mem_flatMap.2
      ⟨t, List.mem_of_getElem? known, List.mem_of_getElem? stored⟩
  cases applies with
  | rule known stored => exact in_table known stored
  | unary known stored => exact in_table known stored
  | unknown => exact List.mem_cons_self

namespace Credits

variable {credits : List (Span × Choice)} (h : p.Credits tables sentence credits)

include h

theorem origin_mem {credit : Span × Choice} (member : credit ∈ credits) :
    credit.2.origin? ∈ origins tables := by
  obtain ⟨span, c⟩ := credit
  obtain ⟨-, r, keep, keys, applies⟩ := h.applies member
  cases applies with
  | rule known stored => exact mem_origins known stored
  | unary known stored => exact mem_origins known stored
  | unknown => exact List.mem_cons_self

/-- Over a span of the sentence, one origin makes no more edges than a power of its length. -/
theorem length_origin_le {span : Span} (known : span ∈ Span.upTo sentence.length)
    {origin : Option (Nat × Nat)} (listed : origin ∈ origins tables) :
    (credits.filter fun y => y.1 = span ∧ y.2.origin? = origin).length ≤
      sentence.length ^ mostGaps tables := by
  obtain ⟨nonempty, inside⟩ := Span.mem_upTo.1 known
  have positive : 0 < sentence.length := by omega
  have one_le : 1 ≤ sentence.length ^ mostGaps tables := Nat.pow_pos positive
  match origin with
  | none =>
      refine (h.length_unknown_le span).trans ?_
      split
      · exact one_le
      · exact Nat.zero_le _
  | some (table, place) =>
      obtain ⟨t, r, known, stored⟩ := exists_rule_of_mem_origins listed
      refine (h.length_rule_le known stored span).trans ?_
      split
      · exact one_le
      · have member : r ∈ tables.flatMap (·.rules) :=
          List.mem_flatMap.2 ⟨t, List.mem_of_getElem? known, List.mem_of_getElem? stored⟩
        calc r.ways (span.stop - span.start)
          _ ≤ (span.stop - span.start) ^ r.gapCount := r.ways_le _
          _ ≤ sentence.length ^ r.gapCount := Nat.pow_le_pow_left (by omega) _
          _ ≤ sentence.length ^ mostGaps tables :=
            Nat.pow_le_pow_right positive (gapCount_le_mostGaps member)

theorem length_le : credits.length ≤ sentence.length * (sentence.length + 1) / 2 *
    ((tables.flatMap (·.rules)).length + 1) * sentence.length ^ mostGaps tables := by
  rw [← Span.length_upTo, ← length_origins, ← List.length_product]
  refine length_le_of_keys h.nodup (fun y => (y.1, y.2.origin?)) ?_ ?_
  · exact fun y member => List.mem_product.2 ⟨(h.applies member).1, h.origin_mem member⟩
  · rintro ⟨span, origin⟩ listed
    obtain ⟨known, listed⟩ := List.mem_product.1 listed
    simp only [Prod.mk.injEq]
    exact h.length_origin_le known listed

/-- A node comes with an edge, so its tuple is the head of a rule, or that of unknown words. -/
theorem nodes_size_le : (p.parse sentence).graph.nodes.size ≤
    sentence.length * (sentence.length + 1) / 2 * ((ruleHeads tables).dedup.length + 1) := by
  obtain ⟨fills, filled⟩ := p.parse_filled sentence
  have charted := p.parse_charted sentence
  rw [← Span.length_upTo, ← List.length_cons (a := p.unknownLabels), ← List.length_product,
    ← charted.size_eq, ← Chart.length_entries, ← List.length_map fun e => (e.1, e.2.1)]
  refine (charted.keys_apart.subperm ?_).length_le
  intro key listed
  obtain ⟨⟨span, labels, id⟩, entry, rfl⟩ := List.mem_map.1 listed
  obtain ⟨-, -, node, -, -, -, some_edge, edges⟩ := charted.node entry
  obtain ⟨j, edge⟩ := List.exists_mem_of_ne_nil _ some_edge
  obtain ⟨e, stored, rfl⟩ := edges j edge
  obtain ⟨credit, member, r, keep, keys, applies, found, -⟩ :=
    exists_of_forall₂_left h.made.flip (Array.mem_toList_iff.2 (Array.mem_of_getElem? stored))
  obtain ⟨rfl, rfl⟩ := filled.wellFormed.key_unique found (charted.find?_iff.2 entry)
  exact List.mem_product.2 ⟨(h.applies member).1, head_mem_of_applies applies⟩

end Credits

/-- The forest of a sentence of a parser that was loaded from tables. It has no more nodes than
spans times one more than the different heads of rules. Each edge is credited to a choice of its
own; an occurrence of a rule has no more choices on a span than there are ways to share out the
positions that its words leave among its gaps, a unary rule has one, and an unknown word one. So
there are no more edges than spans times one more than the rules, times the length of the sentence
to the power of the most gaps. -/
theorem LoadedFrom.size_bounded (h : p.LoadedFrom tables) (sentence : List WordId) :
    (p.parse sentence).graph.nodes.size ≤
      sentence.length * (sentence.length + 1) / 2 * ((ruleHeads tables).dedup.length + 1) ∧
    (∃ credits, p.Credits tables sentence credits ∧ ∀ span : Span,
      (∀ table place t r, tables[table]? = some t → t.rules[place]? = some r →
        (credits.filter fun y => y.1 = span ∧ y.2.origin? = some (table, place)).length ≤
          if r.isUnary then 1 else r.ways (span.stop - span.start)) ∧
      (credits.filter fun y => y.1 = span ∧ y.2.origin? = none).length ≤
        if span.stop - span.start = 1 then 1 else 0) ∧
    (p.parse sentence).graph.edges.size ≤ sentence.length * (sentence.length + 1) / 2 *
      ((tables.flatMap (·.rules)).length + 1) * sentence.length ^ mostGaps tables ∧
    ∀ (r : Rule) (width : Nat), r.ways width =
      if r.gapCount = 0 then if width = r.wordCount then 1 else 0
      else if r.gapCount ≤ width - r.wordCount then
        (width - r.wordCount - 1).choose (r.gapCount - 1)
      else 0 := by
  obtain ⟨credits, credited⟩ := h.exists_credits
  refine ⟨credited.nodes_size_le, ⟨credits, credited, fun span => ⟨?_, ?_⟩⟩, ?_, ?_⟩
  · exact fun table place t r known stored => credited.length_rule_le known stored span
  · exact credited.length_unknown_le span
  · exact credited.length_eq ▸ credited.length_le
  · exact Rule.ways_eq

/-- Two nouns and an unknown word: five nodes, where 6 * 3 are allowed for, and six edges. -/
theorem LoadedFrom.size_bounded_nouns : nounParser.LoadedFrom [nounTable] ∧
    (nounParser.parse [1, 1, 9]).graph.nodes.size ≤ 18 ∧
    (nounParser.parse [1, 1, 9]).graph.edges.size ≤ 270 := by
  obtain ⟨nodes, -, edges, -⟩ := size_bounded nounParser_loadedFrom [1, 1, 9]
  refine ⟨nounParser_loadedFrom, nodes.trans ?_, edges.trans ?_⟩
  · decide +kernel
  · decide +kernel

end Parser

end PackedForest
