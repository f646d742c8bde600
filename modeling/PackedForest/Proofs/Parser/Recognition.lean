import PackedForest.Proofs.Parser.Loading

/-!
# What a parser recognizes

`Parser.Derives` says which label tuples a span of a sentence can be built under, from the rules
of the tables alone: by a rule over a cut of the span, by a unary rule over another tuple, or, for
a single word that no rule takes, under the tuple for unknown words.

The chart of a forest has a node for exactly these. Soundness goes by the width of the span,
since what is applied there rests on narrower spans; completeness goes by the derivation.
-/

namespace PackedForest

open Relation (ReflTransGen)

namespace Parser

/-- The tuples that a span can be built under. -/
inductive Derives (p : Parser) (tables : List RuleTable) (sentence : List WordId) :
    Span → Labels → Prop
  /-- A rule over a cut of the span, every slot of which is derived in its turn. -/
  | rule {span : Span} {t : RuleTable} {r : Rule} {pieces : List Span}
      (table : t ∈ tables) (stored : r ∈ t.rules) (several : r.isUnary = false)
      (narrow : span.stop - span.start ≤ t.spanLimit)
      (length : r.source.length = pieces.length) (cut : span.IsCut pieces)
      (fits : r.Fits sentence pieces)
      (filled : ∀ slot piece labels, (.slot slot, piece) ∈ r.source.zip pieces →
        r.slots[slot]? = some labels → Derives p tables sentence piece labels) :
      Derives p tables sentence span r.head
  /-- A unary rule over the tuple of its slot. -/
  | unary {span : Span} {t : RuleTable} {r : Rule} {labels : Labels}
      (table : t ∈ tables) (stored : r ∈ t.rules) (single : r.isUnary = true)
      (slot : r.slots[0]? = some labels) (below : Derives p tables sentence span labels) :
      Derives p tables sentence span r.head
  /-- A word that is the whole source side of no rule that may be used. -/
  | unknown {start : Nat} {word : WordId} (here : sentence[start]? = some word)
      (kept : p.deleteUnknown = false)
      (unused : ∀ t ∈ tables, 1 ≤ t.spanLimit → ∀ r ∈ t.rules, ∀ id : Nat,
        r.source = [.word id] → (id : WordId) ≠ word) :
      Derives p tables sentence ⟨start, start + 1⟩ p.unknownLabels

end Parser

/-- The grammars of some tables rewrite by the unary rules of the tables. -/
theorem RuleTable.rewrites_iff {tables : List RuleTable} {below above : Labels} :
    Rewrites (tables.map grammar) below above ↔ ∃ t ∈ tables, ∃ r ∈ t.rules, r.isUnary = true ∧
      r.slots[0]? = some below ∧ r.head = above := by
  have unaries : ∀ t : RuleTable, t.grammar.unaries = t.rules.filter (·.isUnary) := fun _ => rfl
  simp [Rewrites, unaries, UnaryRules.tail?, List.head?_eq_getElem?, and_assoc]

namespace Parser

namespace LoadedFrom

variable {p : Parser} {tables : List RuleTable} {sentence : List WordId}

theorem mem_ruleApplications {chart : Chart} {span : Span} {a : Application} :
    a ∈ ruleApplications tables sentence chart span ↔
      ∃ t ∈ tables, span.stop - span.start ≤ t.spanLimit ∧ ∃ r ∈ t.rules, r.isUnary = false ∧
        ∃ tails ∈ r.uses sentence chart span, ⟨r, tails, t.keepSourceText⟩ = a := by
  rw [ruleApplications, List.mem_flatMap]
  refine exists_congr fun t => and_congr_right fun _ => ?_
  rw [RuleTable.applications]
  split
  · next narrow =>
      simp only [List.mem_flatMap, List.mem_filter, List.mem_map, Bool.not_eq_true', narrow,
        true_and, and_assoc]
  · next wide => simp [wide]

/-- A table has a use for a single word only by a rule of which it is the source side. -/
theorem ruleApplications_word (h : p.LoadedFrom tables) {chart : Chart} {start : Nat}
    {word : WordId} (here : sentence[start]? = some word) :
    ruleApplications tables sentence chart ⟨start, start + 1⟩ = [] ↔
      ∀ t ∈ tables, 1 ≤ t.spanLimit → ∀ r ∈ t.rules, ∀ id : Nat,
        r.source = [.word id] → (id : WordId) ≠ word := by
  rw [List.eq_nil_iff_forall_not_mem]
  constructor
  · intro none_found t table wide_enough r stored id source same
    have wf := (h.read t table).wellFormed stored
    have there : sentence[start]? = some (id : WordId) := same ▸ here
    obtain ⟨tails, use⟩ : ∃ tails, tails ∈ r.uses sentence chart ⟨start, start + 1⟩ :=
      wf.uses_word source there
    refine none_found ⟨r, tails, t.keepSourceText⟩ (mem_ruleApplications.2 ?_)
    exact ⟨t, table, by simpa using wide_enough, r, stored, by rw [Rule.isUnary, source], tails,
      use, rfl⟩
  · intro unused a member
    obtain ⟨t, table, narrow, r, stored, several, tails, use, -⟩ := mem_ruleApplications.1 member
    have wf := (h.read t table).wellFormed stored
    obtain ⟨id, source, there⟩ := wf.source_of_uses several use
    exact unused t table (by simpa using narrow) r stored id source
      (Option.some.inj (there.symm.trans here))

/-- A word is passed through exactly if it is kept and no table has a rule for it. -/
theorem mem_unknownApplications (h : p.LoadedFrom tables) {chart : Chart} {span : Span}
    {a : Application} : a ∈ p.unknownApplications tables sentence chart span ↔
      ∃ start word, span = ⟨start, start + 1⟩ ∧ sentence[start]? = some word ∧
        p.deleteUnknown = false ∧
        (∀ t ∈ tables, 1 ≤ t.spanLimit → ∀ r ∈ t.rules, ∀ id : Nat,
          r.source = [.word id] → (id : WordId) ≠ word) ∧
        a = ⟨p.unknownRule word, [], p.keepSourceText⟩ := by
  unfold unknownApplications
  constructor
  · intro passed
    split at passed
    · next condition =>
        obtain ⟨wide, none_found, kept⟩ := condition
        obtain ⟨word, here, rfl⟩ := List.mem_map.1 passed
        rw [Option.mem_toList] at here
        obtain ⟨start, stop⟩ := span
        dsimp only at wide
        subst wide
        exact ⟨start, word, rfl, here, kept, (h.ruleApplications_word here).1 none_found, rfl⟩
    · cases passed
  · rintro ⟨start, word, rfl, here, kept, unused, rfl⟩
    rw [if_pos ⟨rfl, (h.ruleApplications_word here).2 unused, kept⟩, here]
    exact List.mem_singleton_self _

theorem rewrites_iff (h : p.LoadedFrom tables) {below above : Labels} :
    Rewrites p.grammars below above ↔ ∃ t ∈ tables, ∃ r ∈ t.rules, r.isUnary = true ∧
      r.slots[0]? = some below ∧ r.head = above := by
  rw [h.grammars]
  exact RuleTable.rewrites_iff

/-- The tuples of a span are those that unary rules reach from the heads of what was found. -/
theorem isSome_find?_iff (h : p.LoadedFrom tables) {span : Span}
    (known : span ∈ Span.upTo sentence.length) {labels : Labels} :
    ((p.parse sentence).chart.find? span labels).isSome ↔
      ∃ a ∈ ruleApplications tables sentence (p.parse sentence).chart span ++
          p.unknownApplications tables sentence (p.parse sentence).chart span,
        ReflTransGen (Rewrites p.grammars) a.rule.head labels := by
  obtain ⟨fills, filled⟩ := p.parse_filled sentence
  obtain ⟨x, member, rfl⟩ := filled.exists_fill known
  have sound := filled.sound x member
  rw [sound.isSome_iff, sound.found]
  exact exists_congr fun a =>
    and_congr_left fun _ => (h.found_perm known (p.parse sentence).chart).mem_iff

/-- A rule that is not unary has its gaps on narrower spans. -/
theorem gap_narrower {r : Rule} (several : r.isUnary = false) {span piece : Span}
    {pieces : List Span} (length : r.source.length = pieces.length) (cut : span.IsCut pieces)
    {slot : Nat} (placed : (.slot slot, piece) ∈ r.source.zip pieces) :
    piece.stop - piece.start < span.stop - span.start := by
  obtain ⟨symbol, inside⟩ := List.of_mem_zip placed
  have two : 2 ≤ pieces.length := by
    by_contra few
    have some_symbol := List.length_pos_of_mem symbol
    obtain ⟨only, source⟩ := List.length_eq_one_iff.1 (show r.source.length = 1 by omega)
    rw [source, List.mem_singleton] at symbol
    rw [Rule.isUnary, source, ← symbol] at several
    cases several
  exact (cut.within inside).1.narrower (cut.ne_of_two_le two inside)
    (cut.exists_last (List.ne_nil_of_mem inside)).1

theorem derives_of_passed (h : p.LoadedFrom tables) {chart : Chart} {span : Span}
    {a : Application} (passed : a ∈ p.unknownApplications tables sentence chart span) :
    p.Derives tables sentence span a.rule.head := by
  obtain ⟨start, word, rfl, here, kept, unused, rfl⟩ := h.mem_unknownApplications.1 passed
  exact .unknown here kept unused

theorem derives_of_isSome (h : p.LoadedFrom tables) {span : Span} {labels : Labels}
    (found : ((p.parse sentence).chart.find? span labels).isSome) :
    p.Derives tables sentence span labels := by
  induction width : span.stop - span.start using Nat.strong_induction_on
    generalizing span labels with
  | _ width ih =>
      subst width
      obtain ⟨fills, filled⟩ := p.parse_filled sentence
      obtain ⟨a, member, path⟩ := (h.isSome_find?_iff (filled.span_of_found found)).1 found
      clear found
      induction path with
      | refl =>
          rcases List.mem_append.1 member with byRule | passed
          · obtain ⟨t, table, narrow, r, stored, several, tails, use, rfl⟩ :=
              mem_ruleApplications.1 byRule
            obtain ⟨pieces, length, cut, fits, tails_eq⟩ := Rule.mem_uses.1 use
            refine .rule table stored several narrow length cut fits ?_
            intro slot piece labels placed labels_eq
            refine ih _ (gap_narrower several length cut placed) ?_ rfl
            have all := (((h.read t table).wellFormed stored).isSome_tails?_iff length).1
              (by rw [tails_eq]; rfl)
            exact all slot piece labels placed labels_eq
          · exact h.derives_of_passed passed
      | tail _ rewrite below =>
          obtain ⟨t, table, r, stored, single, slot, rfl⟩ := h.rewrites_iff.1 rewrite
          exact .unary table stored single slot below

/-- All slots of a cut have nodes, so the span is one of the sentence. -/
theorem span_mem_of_cut {r : Rule} (wf : r.WellFormed) {span : Span} {pieces : List Span}
    (length : r.source.length = pieces.length) (cut : span.IsCut pieces)
    (fits : r.Fits sentence pieces)
    (known : ∀ slot piece labels, (.slot slot, piece) ∈ r.source.zip pieces →
      r.slots[slot]? = some labels → piece ∈ Span.upTo sentence.length) :
    span ∈ Span.upTo sentence.length := by
  have some_piece : pieces ≠ [] := by
    rintro rfl
    exact wf.source_ne_nil (List.length_eq_zero_iff.1 length)
  obtain ⟨nonempty, last, member, stop⟩ := cut.exists_last some_piece
  refine Span.mem_upTo.2 ⟨nonempty, stop ▸ ?_⟩
  rw [← List.map_snd_zip (Nat.le_of_eq length.symm)] at member
  obtain ⟨⟨symbol, piece⟩, placed, rfl⟩ := List.mem_map.1 member
  cases symbol with
  | word id =>
      obtain ⟨one, here⟩ : (Symbol.word id).Fits sentence piece := fits _ placed
      rw [one]
      exact (List.getElem?_eq_some_iff.1 here).1
  | slot slot =>
      have stored := List.getElem?_eq_getElem (wf.slot_lt (List.of_mem_zip placed).1)
      exact (Span.mem_upTo.1 (known slot piece _ placed stored)).2

theorem isSome_of_derives (h : p.LoadedFrom tables) {span : Span} {labels : Labels}
    (derived : p.Derives tables sentence span labels) :
    ((p.parse sentence).chart.find? span labels).isSome := by
  obtain ⟨fills, filled⟩ := p.parse_filled sentence
  induction derived with
  | @rule span t r pieces table stored several narrow length cut fits _ filled_ih =>
      have wf := (h.read t table).wellFormed stored
      have known := span_mem_of_cut wf length cut fits fun slot piece labels placed labels_eq =>
        filled.span_of_found (filled_ih slot piece labels placed labels_eq)
      obtain ⟨tails, tails_eq⟩ :=
        Option.isSome_iff_exists.1 ((wf.isSome_tails?_iff length).2 filled_ih)
      refine (h.isSome_find?_iff known).2 ⟨⟨r, tails, t.keepSourceText⟩, ?_, .refl⟩
      refine List.mem_append_left _ (mem_ruleApplications.2 ?_)
      exact ⟨t, table, narrow, r, stored, several, tails,
        Rule.mem_uses.2 ⟨pieces, length, cut, fits, tails_eq⟩, rfl⟩
  | unary table stored single slot _ below =>
      have known := filled.span_of_found below
      obtain ⟨a, member, path⟩ := (h.isSome_find?_iff known).1 below
      refine (h.isSome_find?_iff known).2 ⟨a, member, path.tail (h.rewrites_iff.2 ?_)⟩
      exact ⟨_, table, _, stored, single, slot, rfl⟩
  | @unknown start word here kept unused =>
      have inside := (List.getElem?_eq_some_iff.1 here).1
      have known : ⟨start, start + 1⟩ ∈ Span.upTo sentence.length :=
        Span.mem_upTo.2 ⟨Nat.lt_succ_self _, inside⟩
      refine (h.isSome_find?_iff known).2
        ⟨⟨p.unknownRule word, [], p.keepSourceText⟩, List.mem_append_right _ ?_, .refl⟩
      exact h.mem_unknownApplications.2 ⟨start, word, rfl, here, kept, unused, rfl⟩

/-- The chart has a node for a tuple on a span exactly if it can be derived there, and the forest
has a root exactly if the root tuple can be derived over the whole sentence. -/
theorem recognizes (h : p.LoadedFrom tables) (sentence : List WordId) :
    (∀ span labels, ((p.parse sentence).chart.find? span labels).isSome ↔
      p.Derives tables sentence span labels) ∧
    ((p.root? (p.parse sentence)).isSome ↔
      p.Derives tables sentence ⟨0, sentence.length⟩ p.rootLabels) := by
  have exact_chart : ∀ span labels, ((p.parse sentence).chart.find? span labels).isSome ↔
      p.Derives tables sentence span labels := fun span labels =>
    ⟨h.derives_of_isSome, h.isSome_of_derives⟩
  obtain ⟨fills, filled⟩ := p.parse_filled sentence
  refine ⟨exact_chart, ?_⟩
  rw [root?, filled.words]
  exact exact_chart _ _

/-- Three nouns are a sentence, by way of the unary rule. -/
theorem recognizes_nouns : nounParser.LoadedFrom [nounTable] ∧
    nounParser.Derives [nounTable] [1, 1, 1] ⟨0, 3⟩ nounParser.rootLabels :=
  ⟨nounParser_loadedFrom, (recognizes nounParser_loadedFrom [1, 1, 1]).2.1 (by decide +kernel)⟩

end LoadedFrom

end Parser

end PackedForest
