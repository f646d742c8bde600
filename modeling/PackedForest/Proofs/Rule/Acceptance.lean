import PackedForest.Proofs.Rule.Spelling

/-!
# Which lines are rules

A line is accepted by what it says and not by what was numbered before. `RuleLine` lists what it
takes, column by column, and `readRule_accepts` shows that these lines and no others are accepted,
and what comes of them.

`Interning.Accepts` is what is said of a reader on the way: it returns a value exactly if some
condition holds. The conditions of two readers in turn are joined, and the second may depend on what
is known of every value of the first.
-/

namespace PackedForest

open Interning (Returns)
open Text (words)

/-- From every vocabulary on, the reader returns a value exactly if the condition holds. -/
def Interning.Accepts {ε α : Type} (x : Interning ε α) (Q : Prop) : Prop :=
  ∀ v, (∃ a, (x.run.run v).1 = .ok a) ↔ Q

namespace Interning.Accepts

variable {ε δ α β : Type} {x : Interning ε α} {Q Q' : Prop}

theorem iff (h : Accepts x Q) (same : Q ↔ Q') : Accepts x Q' := fun v => (h v).trans same

theorem pure (a : α) : Accepts (Pure.pure a : Interning ε α) True :=
  fun _ => iff_of_true ⟨a, rfl⟩ trivial

theorem throw (e : ε) : Accepts (MonadExcept.throw e : Interning ε α) False :=
  fun _ => iff_of_false (fun ⟨_, result⟩ => by cases result) id

theorem intern (s : String) : Accepts (PackedForest.intern s : Interning ε Nat) True :=
  fun v => iff_of_true ⟨(v.intern s).1, rfl⟩ trivial

theorem lift (x : Except ε α) : Accepts (liftM x : Interning ε α) (∃ a, x = .ok a) :=
  fun _ => Iff.rfl

/-- The second reader comes after the first. -/
theorem bind {f : α → Interning ε β} {P : α → Prop} (first : Accepts x Q)
    (returned : Returns x P) (rest : ∀ a, P a → Accepts (f a) Q') : Accepts (x >>= f) (Q ∧ Q') := by
  intro v
  have here := first v
  rw [ExceptT.run_bind, StateT.run_bind]
  cases run : x.run.run v with
  | mk result v₁ =>
      rw [run] at here
      cases result with
      | ok a =>
          rw [and_iff_right (here.1 ⟨a, rfl⟩)]
          exact rest a (returned v a v₁ run) v₁
      | error e =>
          refine iff_of_false (fun ⟨b, accepted⟩ => by cases accepted) fun both => ?_
          obtain ⟨a, accepted⟩ := here.2 both.1
          cases accepted

/-- A step that is never refused. -/
theorem always {f : α → Interning ε β} (first : Accepts x True) (rest : ∀ a, Accepts (f a) Q') :
    Accepts (x >>= f) Q' :=
  (bind (P := fun _ => True) first (fun _ _ _ _ => trivial) fun a _ => rest a).iff
    (Iff.of_eq (true_and _))

/-- A last step that is never refused. -/
theorem last {f : α → Interning ε β} (first : Accepts x Q) (rest : ∀ a, Accepts (f a) True) :
    Accepts (x >>= f) Q :=
  (bind (P := fun _ => True) first (fun _ _ _ _ => trivial) fun a _ => rest a).iff
    (Iff.of_eq (and_true _))

theorem check {c : Prop} [Decidable c] {e : ε} {f : PUnit → Interning ε α}
    (rest : ¬ c → Accepts x Q) :
    Accepts (if c then MonadExcept.throw e >>= f else x) (¬ c ∧ Q) := by
  split
  · next refused =>
      refine fun v => iff_of_false (fun ⟨a, accepted⟩ => ?_) fun both => both.1 refused
      cases accepted
  · next passed => exact (rest passed).iff (and_iff_right passed).symm

theorem adapt (h : Accepts x Q) (f : ε → δ) : Accepts (ExceptT.adapt f x) Q := by
  intro v
  rw [run_adapt, ← h v]
  cases (x.run.run v).1 with
  | ok a => exact iff_of_true ⟨a, rfl⟩ ⟨a, rfl⟩
  | error e =>
      exact iff_of_false (fun ⟨a, accepted⟩ => by cases accepted)
        fun ⟨a, accepted⟩ => by cases accepted

theorem mapM {f : α → Interning ε β} {R : α → Prop} {as : List α}
    (each : ∀ a ∈ as, Accepts (f a) (R a)) : Accepts (as.mapM f) (∀ a ∈ as, R a) := by
  induction as with
  | nil => exact (pure []).iff (by simp)
  | cons a as ih =>
      obtain ⟨here, later⟩ := List.forall_mem_cons.1 each
      rw [List.mapM_cons, List.forall_mem_cons]
      exact bind (P := fun _ => True) here (fun _ _ _ _ => trivial) fun b _ =>
        last (ih later) fun bs => pure (b :: bs)

end Interning.Accepts

open Interning (Accepts)

/-! ### Features -/

namespace Text

theorem cutLast?_eq_none_iff {mark : Char} {cs : List Char} :
    cutLast? mark cs = none ↔ mark ∉ cs := by
  induction cs with
  | nil => simp [cutLast?]
  | cons c cs ih =>
      rw [cutLast?, List.mem_cons, not_or, ← ih]
      cases cutLast? mark cs with
      | some parts => simp
      | none => simp [eq_comm]

theorem cutLast?_eq_some_iff {mark : Char} {cs before after : List Char} :
    cutLast? mark cs = some (before, after) ↔ cs = before ++ mark :: after ∧ mark ∉ after := by
  refine ⟨fun found => ⟨eq_of_cutLast?_eq_some found, ?_⟩, ?_⟩
  · induction cs generalizing before with
    | nil => cases found
    | cons c cs ih =>
        rw [cutLast?] at found
        split at found
        · next later =>
            cases found
            exact ih later
        · next none_later =>
            split at found
            · cases found
              exact cutLast?_eq_none_iff.1 none_later
            · cases found
  · rintro ⟨rfl, absent⟩
    have none_later := cutLast?_eq_none_iff.2 absent
    induction before with
    | nil => rw [List.nil_append, cutLast?, none_later, if_pos rfl]
    | cons c before ih => rw [List.cons_append, cutLast?, ih]

end Text

/-- A pair is parted into a name and a value at its last equals sign, or without one at its last
colon. -/
def PartsPair (pair name value : List Char) : Prop :=
  pair = name ++ '=' :: value ∧ '=' ∉ value ∨
    '=' ∉ pair ∧ pair = name ++ ':' :: value ∧ ':' ∉ value

/-- The pair has a name and a value that is a number. -/
def FeaturePair (pair : List Char) : Prop :=
  ∃ name value, PartsPair pair name value ∧ name ≠ [] ∧ ∃ x, Decimal.read value = .ok x

theorem splitPair?_eq_some_iff {pair name value : List Char} :
    splitPair? pair = some (name, value) ↔ PartsPair pair name value := by
  rw [splitPair?, Option.or_eq_some_iff, Text.cutLast?_eq_some_iff, Text.cutLast?_eq_some_iff,
    Text.cutLast?_eq_none_iff, PartsPair]

theorem readFeature_accepts (pair : List Char) : Accepts (readFeature pair) (FeaturePair pair) := by
  unfold readFeature
  split
  · next unparted =>
      refine (Accepts.throw _).iff ⟨False.elim, ?_⟩
      rintro ⟨name, value, parts, -⟩
      cases unparted.symm.trans (splitPair?_eq_some_iff.2 parts)
  · next name value parted =>
      have alone : FeaturePair pair ↔ name ≠ [] ∧ ∃ x, Decimal.read value = .ok x := by
        refine ⟨?_, fun good => ⟨name, value, splitPair?_eq_some_iff.1 parted, good⟩⟩
        rintro ⟨name', value', parts, good⟩
        cases parted.symm.trans (splitPair?_eq_some_iff.2 parts)
        exact good
      rw [alone]
      refine (Accepts.check (c := name.isEmpty = true) fun _ => ?_).iff
        (and_congr_left' (by rw [List.isEmpty_iff]))
      split
      · next cause bad =>
          refine (Accepts.throw _).iff ⟨False.elim, ?_⟩
          rintro ⟨x, good⟩
          cases bad.symm.trans good
      · next x good =>
          exact (Accepts.always (.intern _) fun id => .pure _).iff (iff_of_true trivial ⟨x, good⟩)

theorem readFeatures_accepts (column : List Char) :
    Accepts (readFeatures column) (∀ pair ∈ words column, FeaturePair pair) :=
  .last (.mapM fun pair _ => readFeature_accepts pair) fun _ => .pure _

/-! ### Sides -/

/-- The name of a gap. -/
def Token.name? : Token → Option (List Char)
  | .word _ => none
  | .gap name _ => some name

theorem Gaps.isSome_slot?_iff {gaps : Gaps} {name : List Char} :
    (gaps.slot? name).isSome ↔ name ∈ gaps.map (·.1) := by
  rw [Gaps.slot?, List.findIdx?_isSome, List.any_eq_true, List.mem_map]
  simp

/-- Slots are found by their names. -/
theorem Gaps.slot?_congr {gaps gaps' : Gaps} (names : gaps.map (·.1) = gaps'.map (·.1))
    (name : List Char) : gaps.slot? name = gaps'.slot? name := by
  have by_names : ∀ gaps : Gaps, gaps.slot? name = (gaps.map (·.1)).findIdx? (· = name) := by
    intro gaps
    rw [List.findIdx?_map]
    rfl
  rw [by_names, by_names, names]

theorem Gaps.map_fst_setTarget (gaps : Gaps) (slot factor : Nat) (id : WordId) :
    (gaps.setTarget slot factor id).map (·.1) = gaps.map (·.1) := by
  refine List.ext_getElem? fun index => ?_
  rw [List.getElem?_map, List.getElem?_map, getElem?_setTarget]
  split
  · rw [Option.map_map]
    rfl
  · rfl

theorem readSource_names (factors : Nat) (line : List Char) (gaps : Gaps) (tokens : List Token) :
    Returns (readSource factors line gaps tokens) fun read =>
      read.2.map (·.1) = gaps.map (·.1) ++ tokens.filterMap Token.name? := by
  induction tokens generalizing gaps with
  | nil => exact .pure (List.append_nil _).symm
  | cons token tokens ih =>
      cases token with
      | word text =>
          rw [readSource]
          exact .bind_any fun id => .bind (ih gaps) fun _ names => .pure names
      | gap name label =>
          rw [readSource]
          refine .check fun _ => .bind_any fun id => .bind (ih _) fun _ names => .pure ?_
          rw [names, List.map_append, List.append_assoc]
          rfl

theorem readTarget_names (factor : Nat) (line : List Char) (gaps : Gaps) (tokens : List Token) :
    Returns (readTarget factor line gaps tokens) fun read =>
      read.2.map (·.1) = gaps.map (·.1) := by
  induction tokens generalizing gaps with
  | nil => exact .pure rfl
  | cons token tokens ih =>
      cases token with
      | word text =>
          rw [readTarget]
          exact .bind_any fun id => .bind (ih gaps) fun _ names => .pure names
      | gap name label =>
          rw [readTarget]
          split
          · exact .throw _
          · refine .bind_any fun id => .bind (ih _) fun _ names => .pure ?_
            rw [names, Gaps.map_fst_setTarget]

/-- No name of a gap comes back, neither among those before nor among those of this side. -/
theorem readSource_accepts (factors : Nat) (line : List Char) (gaps : Gaps) (tokens : List Token) :
    Accepts (readSource factors line gaps tokens)
      ((tokens.filterMap Token.name?).Nodup ∧
        ∀ name ∈ tokens.filterMap Token.name?, name ∉ gaps.map (·.1)) := by
  induction tokens generalizing gaps with
  | nil => exact (Accepts.pure _).iff (by simp)
  | cons token tokens ih =>
      cases token with
      | word text =>
          rw [readSource]
          exact .always (.intern _) fun id => .last (ih gaps) fun _ => .pure _
      | gap name label =>
          rw [readSource]
          have rest : ∀ id : Nat, Accepts
              (readSource factors line (gaps ++ [(name, .uniform id factors)]) tokens)
              ((tokens.filterMap Token.name?).Nodup ∧
                ∀ other ∈ tokens.filterMap Token.name?, other ∉ gaps.map (·.1) ++ [name]) := by
            intro id
            refine (ih _).iff ?_
            rw [List.map_append, List.map_singleton]
          refine Accepts.iff (.check fun _ => .always (.intern _) fun id =>
            .last (rest id) fun _ => .pure _) ?_
          rw [Gaps.isSome_slot?_iff]
          simp only [List.filterMap_cons, Token.name?, List.nodup_cons, List.forall_mem_cons,
            List.mem_append, List.mem_singleton, not_or]
          constructor
          · rintro ⟨new, distinct, apart⟩
            exact ⟨⟨fun again => (apart name again).2 rfl, distinct⟩, new,
              fun other listed => (apart other listed).1⟩
          · rintro ⟨⟨once, distinct⟩, new, apart⟩
            exact ⟨new, distinct, fun other listed => ⟨apart other listed,
              fun same => once (same ▸ listed)⟩⟩

theorem readTarget_accepts (factor : Nat) (line : List Char) (gaps : Gaps) (tokens : List Token) :
    Accepts (readTarget factor line gaps tokens)
      (∀ name ∈ tokens.filterMap Token.name?, name ∈ gaps.map (·.1)) := by
  induction tokens generalizing gaps with
  | nil => exact (Accepts.pure _).iff (by simp)
  | cons token tokens ih =>
      cases token with
      | word text =>
          rw [readTarget]
          exact .always (.intern _) fun id => .last (ih gaps) fun _ => .pure _
      | gap name label =>
          have known : (gaps.slot? name).isSome ↔ name ∈ gaps.map (·.1) := Gaps.isSome_slot?_iff
          rw [readTarget]
          simp only [List.filterMap_cons, Token.name?, List.forall_mem_cons]
          split
          · next missing =>
              rw [missing] at known
              exact (Accepts.throw _).iff ⟨False.elim, fun both => by simpa using known.2 both.1⟩
          · next slot found =>
              rw [found] at known
              have here : name ∈ gaps.map (·.1) := known.1 rfl
              rw [and_iff_right here]
              refine .always (.intern _) fun id => .last ((ih _).iff ?_) fun _ => .pure _
              rw [Gaps.map_fst_setTarget]

theorem SideText.read_accepts (side : List Char) :
    (∃ s, SideText.read side = .ok s) ↔ ¬ Dangling (words side) := by
  rw [read_eq]
  split
  · next dangling =>
    exact iff_of_false (fun ⟨s, result⟩ => by cases result) fun fine => fine dangling
  · next fine => exact iff_of_true ⟨_, rfl⟩ fine

/-- The names of the gaps that some words write, without a head at their end. -/
def gapNames (side : List (List Char)) : List (List Char) :=
  ((headless side).map Token.ofText).filterMap Token.name?

/-- One of the words before the head writes a gap of this name. -/
def HasGap (side : List (List Char)) (name : List Char) : Prop :=
  ∃ text ∈ headless side, ∃ label, Placeholder text name label

theorem Token.name?_eq_some_iff {token : Token} {name : List Char} :
    token.name? = some name ↔ ∃ label, token = .gap name label := by
  cases token <;> simp [name?]

theorem Token.name?_ofText_eq_some_iff {text name : List Char} :
    (ofText text).name? = some name ↔ ∃ label, Placeholder text name label := by
  simp only [name?_eq_some_iff, ofText_eq_gap_iff]

theorem mem_gapNames {side : List (List Char)} {name : List Char} :
    name ∈ gapNames side ↔ HasGap side name := by
  rw [gapNames, List.filterMap_map, List.mem_filterMap]
  exact exists_congr fun text => and_congr_right' Token.name?_ofText_eq_some_iff

theorem nodup_gapNames {side : List (List Char)} : (gapNames side).Nodup ↔
    (headless side).Pairwise fun text text' =>
      ∀ name label label', Placeholder text name label → ¬ Placeholder text' name label' := by
  rw [gapNames, List.filterMap_map, List.Nodup, List.pairwise_filterMap]
  refine List.Pairwise.iff fun text text' => ?_
  simp only [Function.comp_apply, Token.name?_ofText_eq_some_iff]
  constructor
  · intro apart name label label' first second
    exact apart name ⟨label, first⟩ name ⟨label', second⟩ rfl
  · rintro apart name ⟨label, first⟩ _ ⟨label', second⟩ rfl
    exact apart name label label' first second

theorem SideText.tokens_of_read {side : List Char} {s : SideText} (result : read side = .ok s) :
    s.tokens = (headless (words side)).map Token.ofText := by
  rw [read_eq] at result
  split at result
  · cases result
  · cases result
    rfl

/-- No target side ends in an at sign without a label, and the gaps of all of them are known. -/
theorem readTargets_accepts (line : List Char) (factor : Nat) (head : Labels) (gaps : Gaps)
    (texts : List (List Char)) : Accepts (readTargets line factor head gaps texts)
      (∀ text ∈ texts, ¬ Dangling (words text) ∧
        ∀ name ∈ gapNames (words text), name ∈ gaps.map (·.1)) := by
  induction texts generalizing factor head gaps with
  | nil => exact (Accepts.pure _).iff (by simp)
  | cons text texts ih =>
      rw [readTargets, List.forall_mem_cons, and_assoc]
      refine .bind ((Accepts.lift _).iff (SideText.read_accepts text))
        (P := fun side => SideText.read text = .ok side) (fun _ _ _ result => ?_)
        fun side read => ?_
      · exact (Prod.ext_iff.1 result).1
      extract_lets rest
      have rest_accepts : ∀ head, Accepts (rest head)
          ((∀ name ∈ gapNames (words text), name ∈ gaps.map (·.1)) ∧
            ∀ text ∈ texts, ¬ Dangling (words text) ∧
              ∀ name ∈ gapNames (words text), name ∈ gaps.map (·.1)) := by
        intro head
        have here := readTarget_accepts factor line gaps side.tokens
        rw [SideText.tokens_of_read read] at here
        refine .bind (SideText.tokens_of_read read ▸ here) (readTarget_names _ _ _ _) ?_
        rintro ⟨target, gaps'⟩ names
        exact .last (names ▸ ih _ _ _) fun _ => .pure _
      split
      · exact .always (.pure _) rest_accepts
      · exact .always (.intern _) fun id => .always (.pure _) rest_accepts

/-! ### Lines -/

/-- What the first three columns of a line hold, for a rule with this many target factors. -/
structure RuleColumns (factors : Nat) (source target features : List Char) : Prop where
  source_complete : ¬ Dangling (words source)
  source_ne_nil : headless (words source) ≠ []
  source_distinct : (headless (words source)).Pairwise fun text text' =>
    ∀ name label label', Placeholder text name label → ¬ Placeholder text' name label'
  sides : (factorColumns target).length = factors
  complete : ∀ side ∈ factorColumns target, ¬ Dangling (words side)
  known : ∀ side ∈ factorColumns target, ∀ name, HasGap (words side) name →
    HasGap (words source) name
  pairs : ∀ pair ∈ words features, FeaturePair pair

/-- The line has three columns or more, and they hold a rule. -/
def RuleLine (factors : Nat) (line : List Char) : Prop :=
  ∃ source target features more, ruleColumns line = source :: target :: features :: more ∧
    RuleColumns factors source target features

/-- A second column has one target side or more. -/
theorem RuleLine.factors_pos {factors : Nat} {line : List Char} (h : RuleLine factors line) :
    0 < factors := by
  obtain ⟨source, target, features, more, -, columns⟩ := h
  rw [← columns.sides, factorColumns, Text.length_columns]
  exact Text.one_le_length_cut target

theorem readRule_accepts (factors : Nat) (line : List Char) :
    Accepts (readRule factors line) (RuleLine factors line) := by
  rw [readRule]
  split
  · next source target features more columns =>
      have alone : RuleLine factors line ↔ ¬ Dangling (words source) ∧
          ¬ headless (words source) = [] ∧ (gapNames (words source)).Nodup ∧
          ¬ (factorColumns target).length ≠ factors ∧
          (∀ side ∈ factorColumns target, ¬ Dangling (words side) ∧
            ∀ name ∈ gapNames (words side), name ∈ gapNames (words source)) ∧
          ∀ pair ∈ words features, FeaturePair pair := by
        simp only [mem_gapNames, nodup_gapNames, not_not, forall_and]
        constructor
        · rintro ⟨source', target', features', more', columns', h⟩
          cases columns.symm.trans columns'
          exact ⟨h.source_complete, h.source_ne_nil, h.source_distinct, h.sides,
            ⟨h.complete, h.known⟩, h.pairs⟩
        · rintro ⟨source_complete, source_ne_nil, source_distinct, sides, ⟨complete, known⟩, pairs⟩
          exact ⟨_, _, _, _, columns, ⟨source_complete, source_ne_nil, source_distinct, sides,
            complete, known, pairs⟩⟩
      rw [alone]
      refine .bind ((Accepts.lift _).iff (SideText.read_accepts source))
        (P := fun side => SideText.read source = .ok side) (fun _ _ _ result => ?_)
        fun side read => ?_
      · exact (Prod.ext_iff.1 result).1
      have tokens := SideText.tokens_of_read read
      have empty : side.tokens.isEmpty = true ↔ headless (words source) = [] := by
        rw [tokens, List.isEmpty_iff, List.map_eq_nil_iff]
      have source_accepts := readSource_accepts factors line [] side.tokens
      have source_names := readSource_names factors line [] side.tokens
      rw [tokens] at source_accepts source_names
      rw [← empty, tokens]
      refine .check fun _ => .always (.intern _) fun label => .bind
        (source_accepts.iff (and_iff_left fun _ _ => List.not_mem_nil)) source_names ?_
      rintro ⟨symbols, gaps⟩ names
      refine .check fun _ => .bind (P := fun _ => True) ?_ (fun _ _ _ _ => trivial) ?_
      · have known : gaps.map (·.1) = gapNames (words source) := names
        exact known ▸ readTargets_accepts line 0 _ gaps _
      · rintro ⟨targets, head, gaps'⟩ -
        exact .last ((readFeatures_accepts features).adapt _) fun _ => .pure _
  · next few =>
      refine (Accepts.throw _).iff ⟨False.elim, ?_⟩
      rintro ⟨source, target, features, more, columns, -⟩
      exact few _ _ _ _ columns

/-! ### Rules -/

/-- The numbers that stand for slots are those below zero, as long as they have 32 bits. -/
theorem filter_map_toId {side : List Symbol} {bound : Nat} (below : SlotsBelow bound side)
    (fits : bound ≤ 0x80000000) : (side.map Symbol.toId).filter (· < 0) =
      (side.filterMap Symbol.slot?).map fun slot : Nat => -1 - (slot : Int) := by
  induction side with
  | nil => rfl
  | cons symbol side ih =>
      have rest := ih fun slot listed => below slot (List.mem_cons_of_mem _ listed)
      cases symbol with
      | word id =>
          rw [List.map_cons, Symbol.toId, List.filter_cons_of_neg (by simp), rest]
          rfl
      | slot index =>
          have inside := below index List.mem_cons_self
          have number := slotId_small (Nat.lt_of_lt_of_le inside fits)
          have negative : (-1 - index : Int) < 0 := by omega
          rw [List.map_cons, Symbol.toId, number, List.filter_cons_of_pos (by simpa using negative),
            rest]
          rfl

/-- The shape of a rule that is read, in the vocabulary that the reader leaves. -/
structure Rule.Shaped (factors : Nat) (v : Vocabulary) (r : Rule) : Prop where
  source_slots : r.source.filterMap Symbol.slot? = List.range r.slots.length
  source_numbers : r.slots.length ≤ 0x80000000 → (r.source.map Symbol.toId).filter (· < 0) =
    (List.range r.slots.length).map fun slot : Nat => -1 - (slot : Int)
  slots : ∀ l ∈ r.slots, l.size = factors + 1
  head : r.head.size = factors + 1
  targets : r.targets.length = factors
  target_slots : ∀ side ∈ r.targets, SlotsBelow r.slots.length side
  named : r.Named v

/-- A line is accepted exactly if it holds a rule, and the rule has the right shape. -/
theorem readRule_spec (factors : Nat) (line : List Char) (v : Vocabulary) :
    match (readRule factors line).run.run v with
    | (.ok r, v') => RuleLine factors line ∧ r.Shaped factors v'
    | (.error _, _) => ¬ RuleLine factors line := by
  have accepted := readRule_accepts factors line v
  have writable := @(readRule_writable factors line v).returns
  have named := @(readRule_named factors line v).returns
  generalize (readRule factors line).run.run v = run at accepted writable named
  match run with
  | (.error e, v') =>
      intro holds
      obtain ⟨r, impossible⟩ := accepted.2 holds
      cases impossible
  | (.ok r, v') =>
      have w := writable rfl
      refine ⟨accepted.1 ⟨r, rfl⟩, ?_⟩
      constructor
      case source_slots => exact w.wellFormed.slots_eq
      case source_numbers =>
        intro fits
        rw [← w.wellFormed.slots_eq]
        refine filter_map_toId (fun slot listed => ?_) fits
        rw [← List.mem_range, ← w.wellFormed.slots_eq]
        exact List.mem_filterMap.2 ⟨_, listed, rfl⟩
      case slots => exact fun l listed => congrArg (· + 1) (w.slots_length l listed)
      case head => exact congrArg (· + 1) w.head_length
      case targets => exact w.targets_length
      case target_slots => exact w.below
      case named => exact named rfl

end PackedForest
