import PackedForest.Proofs.Parser.Recognition

/-!
# The choices of a span

A tuple over a span is built by some choice: a rule over a cut of the span, a unary rule, or the
passing of a word that no rule takes. A choice names its rule by the place of the table and the
place in it, so a rule that is there twice makes two choices. `Choice.Applies` says by which rule a
choice builds and which tuples over which spans it leaves to be built.

`choices` lists the choices that a chart allows over a span, each with its application. None comes
twice (`nodup_choices`). For a parser that was loaded from tables, the applications are those that
the walks find and, on top, the uses of unary rules.
-/

namespace PackedForest

/-- What builds a tuple over a span. -/
inductive Choice
  | rule (table place : Nat) (pieces : List Span)
  | unary (table place : Nat)
  | unknown

/-- The nodes under some keys, one for each. -/
abbrev Chart.Finds (chart : Chart) : List (Span × Labels) → List NodeId → Prop :=
  List.Forall₂ fun key t => chart.find? key.1 key.2 = some t

namespace Rule

/-- The piece and the labels of each slot, in the order of the slots. -/
def gapKeys (r : Rule) (pieces : List Span) : List (Span × Labels) :=
  (Symbol.gaps (r.source.zip pieces)).filterMap fun gap => r.slots[gap.1]?.map (gap.2, ·)

end Rule

/-- What a choice builds over a span: by which rule, with or without its source text, and out of
which tuples. -/
inductive Choice.Applies (p : Parser) (tables : List RuleTable) (sentence : List WordId) :
    Choice → Span → Rule → (keepSourceText : Bool) → List (Span × Labels) → Prop
  /-- A rule over a cut of the span. -/
  | rule {table place : Nat} {span : Span} {t : RuleTable} {r : Rule} {pieces : List Span}
      (known : tables[table]? = some t) (stored : t.rules[place]? = some r)
      (several : r.isUnary = false) (narrow : span.stop - span.start ≤ t.spanLimit)
      (length : r.source.length = pieces.length) (cut : span.IsCut pieces)
      (fits : r.Fits sentence pieces) :
      Applies p tables sentence (.rule table place pieces) span r t.keepSourceText
        (r.gapKeys pieces)
  /-- A unary rule over the tuple of its slot. -/
  | unary {table place : Nat} {span : Span} {t : RuleTable} {r : Rule} {labels : Labels}
      (known : tables[table]? = some t) (stored : t.rules[place]? = some r)
      (single : r.isUnary = true) (slot : r.slots[0]? = some labels) :
      Applies p tables sentence (.unary table place) span r t.keepSourceText [(span, labels)]
  /-- A word that is the whole source side of no rule that may be used. -/
  | unknown {start : Nat} {word : WordId} (here : sentence[start]? = some word)
      (kept : p.deleteUnknown = false)
      (unused : ∀ t ∈ tables, 1 ≤ t.spanLimit → ∀ r ∈ t.rules, ∀ id : Nat,
        r.source = [.word id] → (id : WordId) ≠ word) :
      Applies p tables sentence .unknown ⟨start, start + 1⟩ (p.unknownRule word)
        p.keepSourceText []

namespace Rule

variable {sentence : List WordId} {chart : Chart} {r : Rule}

theorem mem_gapKeys {pieces : List Span} {slot : Nat} {piece : Span} {labels : Labels}
    (placed : (.slot slot, piece) ∈ r.source.zip pieces) (stored : r.slots[slot]? = some labels) :
    (piece, labels) ∈ r.gapKeys pieces :=
  List.mem_filterMap.2 ⟨(slot, piece), Symbol.mem_gaps.2 placed, by rw [stored]; rfl⟩

theorem mapM_eq_some_iff {α β : Type} {as : List α} {f : α → Option β} {bs : List β} :
    as.mapM f = some bs ↔ List.Forall₂ (fun a b => f a = some b) as bs := by
  induction as generalizing bs with
  | nil => simp [eq_comm]
  | cons a as ih =>
      rw [List.mapM_cons, List.forall₂_cons_left_iff]
      simp only [Option.bind_eq_bind, Option.bind_eq_some_iff, ih, Option.pure_def,
        Option.some.injEq]
      constructor
      · rintro ⟨b, first, rest, others, rfl⟩
        exact ⟨b, rest, first, others, rfl⟩
      · rintro ⟨b, rest, first, others, rfl⟩
        exact ⟨b, first, rest, others, rfl⟩

/-- The tails of a use are the nodes of the keys of its gaps. -/
theorem WellFormed.tails?_eq_some_iff (h : r.WellFormed) {pieces : List Span}
    (length : r.source.length = pieces.length) {tails : List NodeId} :
    r.tails? chart pieces = some tails ↔
      chart.Finds (r.gapKeys pieces) tails := by
  have stored : ∀ gap ∈ Symbol.gaps (r.source.zip pieces), gap.1 < r.slots.length := by
    rintro ⟨slot, piece⟩ member
    exact h.slot_lt (List.of_mem_zip (Symbol.mem_gaps.1 member)).1
  rw [h.tails?_eq chart length, Chart.Finds, ← mapM_eq_some_iff, gapKeys]
  generalize Symbol.gaps (r.source.zip pieces) = gaps at stored
  have same : (gaps.mapM fun gap => r.slots[gap.1]?.bind (chart.find? gap.2)) =
      (gaps.filterMap fun gap => r.slots[gap.1]?.map (gap.2, ·)).mapM
        fun key => chart.find? key.1 key.2 := by
    induction gaps with
    | nil => rfl
    | cons gap gaps ih =>
        obtain ⟨here, later⟩ := List.forall_mem_cons.1 stored
        rw [List.mapM_cons, List.filterMap_cons_some (b := (gap.2, r.slots[gap.1])), List.mapM_cons,
          ih later, List.getElem?_eq_getElem here]
        · rfl
        · rw [List.getElem?_eq_getElem here]
          rfl
  rw [same]

/-- The uses over a span, each with its cut. -/
def cutUses (sentence : List WordId) (chart : Chart) (span : Span) (r : Rule) :
    List (List Span × List NodeId) :=
  (span.cuts r.source.length).filterMap fun pieces =>
    if r.Fits sentence pieces then (r.tails? chart pieces).map (pieces, ·) else none

theorem map_snd_cutUses (span : Span) :
    (r.cutUses sentence chart span).map (·.2) = r.uses sentence chart span := by
  rw [cutUses, uses, List.map_filterMap]
  refine List.filterMap_congr fun pieces _ => ?_
  split
  · rw [Option.map_map]
    exact congrFun Option.map_id _
  · rfl

theorem nodup_map_fst_cutUses (span : Span) :
    ((r.cutUses sentence chart span).map (·.1)).Nodup := by
  have kept : (r.cutUses sentence chart span).map (·.1) = (span.cuts r.source.length).filter
      fun pieces => r.Fits sentence pieces ∧ (r.tails? chart pieces).isSome := by
    rw [cutUses, List.map_filterMap, ← List.filterMap_eq_filter]
    refine List.filterMap_congr fun pieces _ => ?_
    by_cases fits : r.Fits sentence pieces
    · cases found : r.tails? chart pieces <;> simp [fits, found, Option.guard]
    · simp [fits, Option.guard]
  rw [kept]
  exact (Span.nodup_cuts _ _).filter _

theorem mem_cutUses {span : Span} {pieces : List Span} {tails : List NodeId} :
    (pieces, tails) ∈ r.cutUses sentence chart span ↔
      r.source.length = pieces.length ∧ span.IsCut pieces ∧ r.Fits sentence pieces ∧
        r.tails? chart pieces = some tails := by
  rw [cutUses, List.mem_filterMap]
  constructor
  · rintro ⟨pieces, listed, kept⟩
    obtain ⟨length, cut⟩ := Span.mem_cuts.1 listed
    split at kept
    · next fits =>
        obtain ⟨tails, filled, same⟩ := Option.map_eq_some_iff.1 kept
        cases same
        exact ⟨length.symm, cut, fits, filled⟩
    · cases kept
  · rintro ⟨length, cut, fits, filled⟩
    exact ⟨pieces, Span.mem_cuts.2 ⟨length.symm, cut⟩, by rw [if_pos fits, filled]; rfl⟩

end Rule

/-- What comes of entries with different keys does not repeat, if it tells the key it comes of. -/
theorem nodup_flatMap_of_key {α β γ : Type} {entries : List α} {f : α → List β} (key : α → γ)
    (apart : (entries.map key).Nodup) (each : ∀ x ∈ entries, (f x).Nodup) (told : β → γ)
    (tells : ∀ x, ∀ b ∈ f x, told b = key x) : (entries.flatMap f).Nodup := by
  refine List.nodup_flatMap.2 ⟨each, ?_⟩
  refine (List.pairwise_map.1 apart).imp fun {x y} differ b first second => differ ?_
  rw [← tells x b first, ← tells y b second]

theorem nodup_map_snd_zipIdx {α : Type} (as : List α) : (as.zipIdx.map (·.2)).Nodup := by
  rw [List.zipIdx_map_snd]
  exact List.nodup_range'

namespace Choice

/-- The place of the table that the rule of a choice stands in. -/
def table : Choice → Nat
  | rule table _ _ => table
  | unary table _ => table
  | unknown => 0

/-- The place of the rule in its table. -/
def place : Choice → Nat
  | rule _ place _ => place
  | unary _ place => place
  | unknown => 0

end Choice

namespace RuleTable

/-- The choices of the rules that are not unary, over all cuts of a span within the limit. -/
def ruleChoices (sentence : List WordId) (chart : Chart) (span : Span) (t : RuleTable)
    (table : Nat) : List (Choice × Application) :=
  if span.stop - span.start ≤ t.spanLimit then
    (t.rules.zipIdx.filter (!·.1.isUnary)).flatMap fun (r, place) =>
      (r.cutUses sentence chart span).map fun use =>
        (.rule table place use.1, ⟨r, use.2, t.keepSourceText⟩)
  else []

/-- The choices of the unary rules that have both nodes on a span. -/
def unaryChoices (chart : Chart) (span : Span) (t : RuleTable) (table : Nat) :
    List (Choice × Application) :=
  (t.rules.zipIdx.filter (·.1.isUnary)).flatMap fun (r, place) =>
    (unaryUse? chart span t.grammar r).toList.map fun u => (.unary table place, u.application)

variable {sentence : List WordId} {chart : Chart} {span : Span} (t : RuleTable) (table : Nat)

theorem map_fst_zipIdx_filter (keep : Rule → Bool) :
    (t.rules.zipIdx.filter fun x => keep x.1).map (·.1) = t.rules.filter keep := by
  conv_rhs => rw [← List.zipIdx_map_fst 0 t.rules]
  exact List.filter_map.symm

theorem map_snd_ruleChoices : (t.ruleChoices sentence chart span table).map (·.2) =
    t.applications sentence chart span := by
  rw [ruleChoices, applications]
  split
  · rw [← t.map_fst_zipIdx_filter (!·.isUnary), List.flatMap_map, List.map_flatMap]
    refine List.flatMap_congr fun x _ => ?_
    rw [← Rule.map_snd_cutUses, List.map_map, List.map_map]
    rfl
  · rfl

theorem map_snd_unaryChoices : (t.unaryChoices chart span table).map (·.2) =
    (t.grammar.unaries.filterMap (unaryUse? chart span t.grammar)).map UnaryUse.application := by
  have unaries : t.grammar.unaries = t.rules.filter (·.isUnary) := rfl
  rw [unaryChoices, unaries, ← t.map_fst_zipIdx_filter (·.isUnary), List.filterMap_map,
    List.filterMap_eq_flatMap_toList, List.map_flatMap, List.map_flatMap]
  refine List.flatMap_congr fun x _ => ?_
  rw [List.map_map]
  rfl

theorem nodup_ruleChoices : ((t.ruleChoices sentence chart span table).map (·.1)).Nodup := by
  rw [ruleChoices]
  split
  · rw [List.map_flatMap]
    refine nodup_flatMap_of_key Prod.snd ?_ (fun x _ => ?_) Choice.place fun x c listed => ?_
    · exact (nodup_map_snd_zipIdx t.rules).sublist (List.filter_sublist.map _)
    · have cuts : ((x.1.cutUses sentence chart span).map (·.1)).Nodup :=
        Rule.nodup_map_fst_cutUses span
      have apart := cuts.map (f := Choice.rule table x.2) fun _ _ same => by cases same; rfl
      rwa [List.map_map] at apart ⊢
    · obtain ⟨_, made, rfl⟩ := List.mem_map.1 listed
      obtain ⟨use, -, rfl⟩ := List.mem_map.1 made
      rfl
  · exact List.nodup_nil

theorem nodup_unaryChoices : ((t.unaryChoices chart span table).map (·.1)).Nodup := by
  rw [unaryChoices, List.map_flatMap]
  refine nodup_flatMap_of_key Prod.snd ?_ (fun x _ => ?_) Choice.place fun x c listed => ?_
  · exact (nodup_map_snd_zipIdx t.rules).sublist (List.filter_sublist.map _)
  · obtain ⟨r, place⟩ := x
    dsimp only
    cases unaryUse? chart span t.grammar r with
    | none => exact List.nodup_nil
    | some u => exact List.nodup_singleton _
  · obtain ⟨_, made, rfl⟩ := List.mem_map.1 listed
    obtain ⟨use, -, rfl⟩ := List.mem_map.1 made
    rfl

variable {t table}

theorem mem_ruleChoices {c : Choice} {a : Application} :
    (c, a) ∈ t.ruleChoices sentence chart span table ↔
      span.stop - span.start ≤ t.spanLimit ∧ ∃ place pieces, t.rules[place]? = some a.rule ∧
        a.rule.isUnary = false ∧ a.keepSourceText = t.keepSourceText ∧
        (pieces, a.tails) ∈ a.rule.cutUses sentence chart span ∧ c = .rule table place pieces := by
  rw [ruleChoices]
  split
  · next narrow =>
      simp only [List.mem_flatMap, List.mem_filter, List.mem_map, List.mem_zipIdx_iff_getElem?,
        Prod.exists, narrow, true_and]
      constructor
      · rintro ⟨r, place, ⟨stored, several⟩, pieces, tails, use, same⟩
        cases same
        exact ⟨place, pieces, stored, by simpa using several, rfl, use, rfl⟩
      · rintro ⟨place, pieces, stored, several, keep, use, rfl⟩
        refine ⟨a.rule, place, ⟨stored, by simpa using several⟩, pieces, a.tails, use, ?_⟩
        rw [← keep]
  · next wide => simp [wide]

theorem mem_unaryChoices {c : Choice} {a : Application} :
    (c, a) ∈ t.unaryChoices chart span table ↔
      ∃ place u, t.rules[place]? = some u.rule ∧ u.rule.isUnary = true ∧
        unaryUse? chart span t.grammar u.rule = some u ∧ a = u.application ∧
        c = .unary table place := by
  simp only [unaryChoices, List.mem_flatMap, List.mem_filter, List.mem_map,
    List.mem_zipIdx_iff_getElem?, Prod.exists, Option.mem_toList]
  constructor
  · rintro ⟨r, place, ⟨stored, single⟩, u, use, same⟩
    cases same
    obtain ⟨-, rfl, -⟩ := unaryUse?_eq_some_iff.1 use
    exact ⟨place, u, stored, single, use, rfl, rfl⟩
  · rintro ⟨place, u, stored, single, use, rfl, rfl⟩
    exact ⟨u.rule, place, ⟨stored, single⟩, u, use, rfl⟩

end RuleTable

namespace Parser

/-- The choices that a chart allows over a span, each with its application. -/
def choices (p : Parser) (tables : List RuleTable) (sentence : List WordId) (chart : Chart)
    (span : Span) : List (Choice × Application) :=
  (tables.zipIdx.flatMap fun x => x.1.ruleChoices sentence chart span x.2) ++
    ((p.unknownApplications tables sentence chart span).map (.unknown, ·) ++
      tables.zipIdx.flatMap fun x => x.1.unaryChoices chart span x.2)

variable (p : Parser) (tables : List RuleTable) (sentence : List WordId) (chart : Chart)
  (span : Span)

theorem map_snd_choices : (p.choices tables sentence chart span).map (·.2) =
    (ruleApplications tables sentence chart span ++
      p.unknownApplications tables sentence chart span) ++
      tables.flatMap fun t =>
        (t.grammar.unaries.filterMap (unaryUse? chart span t.grammar)).map
          UnaryUse.application := by
  have by_table : ∀ f : RuleTable → List Application,
      (tables.zipIdx.flatMap fun x => f x.1) = tables.flatMap f := by
    intro f
    conv_rhs => rw [← List.zipIdx_map_fst 0 tables, List.flatMap_map]
  have passed : ((p.unknownApplications tables sentence chart span).map
      (Choice.unknown, ·)).map (·.2) = p.unknownApplications tables sentence chart span := by
    rw [List.map_map]
    exact List.map_id _
  simp only [choices, List.map_append, List.map_flatMap, RuleTable.map_snd_ruleChoices,
    RuleTable.map_snd_unaryChoices, passed, List.append_assoc, ruleApplications]
  rw [← by_table, ← by_table]

theorem length_unknownApplications_le :
    (p.unknownApplications tables sentence chart span).length ≤ 1 := by
  unfold unknownApplications
  split
  · rw [List.length_map]
    exact Option.length_toList_le
  · exact Nat.zero_le _

theorem nodup_choices : ((p.choices tables sentence chart span).map (·.1)).Nodup := by
  have by_rule : ∀ x : RuleTable × Nat,
      ∀ c ∈ (x.1.ruleChoices sentence chart span x.2).map (·.1),
        ∃ place pieces, c = .rule x.2 place pieces := by
    intro x c listed
    obtain ⟨y, made, rfl⟩ := List.mem_map.1 listed
    obtain ⟨-, place, pieces, -, -, -, -, same⟩ := RuleTable.mem_ruleChoices.1 made
    exact ⟨place, pieces, same⟩
  have by_unary : ∀ x : RuleTable × Nat, ∀ c ∈ (x.1.unaryChoices chart span x.2).map (·.1),
      ∃ place, c = .unary x.2 place := by
    intro x c listed
    obtain ⟨y, made, rfl⟩ := List.mem_map.1 listed
    obtain ⟨place, u, -, -, -, -, same⟩ := RuleTable.mem_unaryChoices.1 made
    exact ⟨place, same⟩
  have passed : ∀ c ∈ (p.unknownApplications tables sentence chart span).map
      fun _ => Choice.unknown, c = .unknown := fun c listed => by
    obtain ⟨_, -, rfl⟩ := List.mem_map.1 listed
    rfl
  have rules : (tables.zipIdx.flatMap fun x =>
      (x.1.ruleChoices sentence chart span x.2).map (·.1)).Nodup :=
    nodup_flatMap_of_key Prod.snd (nodup_map_snd_zipIdx tables)
      (fun x _ => x.1.nodup_ruleChoices x.2) Choice.table fun x c listed => by
        obtain ⟨place, pieces, rfl⟩ := by_rule x c listed
        rfl
  have unaries : (tables.zipIdx.flatMap fun x =>
      (x.1.unaryChoices chart span x.2).map (·.1)).Nodup :=
    nodup_flatMap_of_key Prod.snd (nodup_map_snd_zipIdx tables)
      (fun x _ => x.1.nodup_unaryChoices x.2) Choice.table fun x c listed => by
        obtain ⟨place, rfl⟩ := by_unary x c listed
        rfl
  have unknowns : ((p.unknownApplications tables sentence chart span).map
      fun _ => Choice.unknown).Nodup := by
    rw [List.map_const', List.nodup_replicate]
    exact p.length_unknownApplications_le ..
  rw [choices, List.map_append, List.map_append, List.map_flatMap, List.map_flatMap, List.map_map]
  refine List.nodup_append.2 ⟨rules, List.nodup_append.2 ⟨unknowns, unaries, ?_⟩, ?_⟩
  · intro c first d second same
    obtain ⟨x, -, second⟩ := List.mem_flatMap.1 second
    obtain ⟨place, rfl⟩ := by_unary x d second
    rw [passed c first] at same
    cases same
  · intro c first d second same
    obtain ⟨x, -, first⟩ := List.mem_flatMap.1 first
    obtain ⟨place, pieces, rfl⟩ := by_rule x c first
    rcases List.mem_append.1 second with unknown | unary
    · rw [passed d unknown] at same
      cases same
    · obtain ⟨y, -, unary⟩ := List.mem_flatMap.1 unary
      obtain ⟨place', rfl⟩ := by_unary y d unary
      cases same

variable {p tables sentence chart span}

/-- The choices for a tuple that has a node are those that apply, with tails for all they leave to
be built. -/
theorem LoadedFrom.mem_choices (h : p.LoadedFrom tables) {c : Choice} {a : Application}
    (built : (chart.find? span a.rule.head).isSome) :
    (c, a) ∈ p.choices tables sentence chart span ↔
      ∃ keys, c.Applies p tables sentence span a.rule a.keepSourceText keys ∧
        chart.Finds keys a.tails := by
  obtain ⟨r, tails, keep⟩ := a
  simp only [choices, List.mem_append, List.mem_flatMap, List.mem_map, Prod.exists,
    List.mem_zipIdx_iff_getElem?]
  constructor
  · rintro (⟨t, table, known, listed⟩ | ⟨a, passed, same⟩ | ⟨t, table, known, listed⟩)
    · obtain ⟨narrow, place, pieces, stored, several, kept, use, rfl⟩ :=
        RuleTable.mem_ruleChoices.1 listed
      obtain ⟨length, cut, fits, filled⟩ := Rule.mem_cutUses.1 use
      have wf := (h.read t (List.mem_of_getElem? known)).wellFormed (List.mem_of_getElem? stored)
      dsimp only at kept stored several length
      subst kept
      exact ⟨_, .rule known stored several narrow length cut fits,
        (wf.tails?_eq_some_iff length).1 filled⟩
    · cases same
      obtain ⟨start, word, rfl, here, kept, unused, same⟩ := h.mem_unknownApplications.1 passed
      cases same
      exact ⟨[], .unknown here kept unused, .nil⟩
    · obtain ⟨place, u, stored, single, use, same, rfl⟩ := RuleTable.mem_unaryChoices.1 listed
      cases same
      obtain ⟨gram, -, ⟨labels, tailed, tail_found⟩, -⟩ := unaryUse?_eq_some_iff.1 use
      rw [UnaryRules.tail?, List.head?_eq_getElem?] at tailed
      rw [gram]
      exact ⟨_, .unary known stored single tailed, .cons tail_found .nil⟩
  · rintro ⟨keys, applies, found⟩
    cases applies with
    | @rule table place _ t _ pieces known stored several narrow length cut fits =>
        have wf := (h.read t (List.mem_of_getElem? known)).wellFormed (List.mem_of_getElem? stored)
        refine .inl ⟨t, table, known, RuleTable.mem_ruleChoices.2 ?_⟩
        exact ⟨narrow, place, pieces, stored, several, rfl,
          Rule.mem_cutUses.2 ⟨length, cut, fits, (wf.tails?_eq_some_iff length).2 found⟩, rfl⟩
    | @unary table place _ t _ labels known stored single slot =>
        obtain ⟨tail, none, tail_found, rest, rfl⟩ := List.forall₂_cons_left_iff.1 found
        obtain rfl := List.forall₂_nil_left_iff.1 rest
        obtain ⟨head, head_found⟩ := Option.isSome_iff_exists.1 built
        have tailed : UnaryRules.tail? r = some labels := by
          rw [UnaryRules.tail?, List.head?_eq_getElem?, slot]
        have use : unaryUse? chart span t.grammar r = some ⟨t.grammar, r, tail, head⟩ :=
          unaryUse?_eq_some_iff.2 ⟨rfl, rfl, ⟨labels, tailed, tail_found⟩, head_found⟩
        refine .inr (.inr ⟨t, table, known, RuleTable.mem_unaryChoices.2 ?_⟩)
        exact ⟨place, ⟨t.grammar, r, tail, head⟩, stored, single, use, rfl, rfl⟩
    | @unknown start word here kept unused =>
        obtain rfl := List.forall₂_nil_left_iff.1 found
        exact .inr (.inl ⟨_, h.mem_unknownApplications.2
          ⟨start, word, rfl, here, kept, unused, rfl⟩, rfl⟩)

end Parser

end PackedForest
