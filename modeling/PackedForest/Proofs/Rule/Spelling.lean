import PackedForest.Proofs.Rule.Naming
import PackedForest.Proofs.Rule.Tokens

/-!
# What the numbers in a rule spell

The strings of a rule that is read come from its line. So they have no blanks, labels are not empty,
and what stood in a column does not hold the mark that parts columns. What stood in a target side
does not hold the mark that parts sides either; but a target side that names no head takes the label
of the source side, where this mark may stand. A slot has as many labels as there are factors, and
beside its first one no others than those that target sides with a gap for it write.

All this is what it takes to write the rule down (`Rule.Writable`), and it holds of every rule that
is read (`readRule_writable`).
-/

namespace PackedForest

open Interning (Leaves)
open Vocabulary

/-- The mark between columns. -/
def columnMark : List Char := ['|', '|', '|']

/-- The mark between target sides. -/
def factorMark : List Char := ['|', 'C', 'O', 'L', '|']

namespace Vocabulary

/-- The number names a string that has no blanks and holds none of the marks. -/
def SpellsWord (v : Vocabulary) (marks : List (List Char)) (id : WordId) : Prop :=
  ∃ s, v.symbol id = .ok (String.ofList s) ∧ Text.Safe marks s

/-- So it is, and the string is not empty. -/
def SpellsLabel (v : Vocabulary) (marks : List (List Char)) (id : WordId) : Prop :=
  ∃ s, v.symbol id = .ok (String.ofList s) ∧ s ≠ [] ∧ Text.Safe marks s

variable {v v' : Vocabulary} {marks : List (List Char)} {id : WordId}

theorem SpellsWord.mono (h : v.SpellsWord marks id) (more : v'.Extends v) :
    v'.SpellsWord marks id := by
  obtain ⟨s, named, safe⟩ := h
  exact ⟨s, more.symbol named, safe⟩

theorem SpellsLabel.mono (h : v.SpellsLabel marks id) (more : v'.Extends v) :
    v'.SpellsLabel marks id := by
  obtain ⟨s, named, nonempty, safe⟩ := h
  exact ⟨s, more.symbol named, nonempty, safe⟩

end Vocabulary

/-! ### One side -/

section Side

variable {v : Vocabulary} {marks : List (List Char)}

/-- The words of a side. -/
def SpellsWords (v : Vocabulary) (marks : List (List Char)) (side : List Symbol) : Prop :=
  ∀ id : Nat, .word id ∈ side → v.SpellsWord marks id

theorem SpellsWords.nil : SpellsWords v marks [] := fun _ member => by cases member

theorem SpellsWords.mono {v' : Vocabulary} {side : List Symbol} (h : SpellsWords v marks side)
    (more : v'.Extends v) : SpellsWords v' marks side := fun id member => (h id member).mono more

theorem SpellsWords.word {id : Nat} {side : List Symbol} (first : v.SpellsWord marks id)
    (h : SpellsWords v marks side) : SpellsWords v marks (.word id :: side) := fun id' member => by
  rcases List.mem_cons.1 member with same | later
  · cases same
    exact first
  · exact h id' later

theorem SpellsWords.slot (index : Nat) {side : List Symbol} (h : SpellsWords v marks side) :
    SpellsWords v marks (.slot index :: side) := fun id member =>
  h id ((List.mem_cons.1 member).resolve_left nofun)

/-- The source side opens slots, each under one label for every factor. -/
theorem readSource_spells (factors : Nat) (line : List Char) (gaps : Gaps) {tokens : List Token}
    (writable : ∀ token ∈ tokens, token.Writable marks) :
    Leaves v (readSource factors line gaps tokens) fun v' read =>
      SpellsWords v' marks read.1 ∧ ∃ opened, read.2 = gaps ++ opened ∧
        ∀ gap ∈ opened, ∃ id, gap.2 = .uniform id factors ∧ v'.SpellsLabel marks id := by
  induction tokens generalizing v gaps with
  | nil => exact .pure ⟨.nil, [], (List.append_nil gaps).symm, by simp⟩
  | cons token tokens ih =>
      obtain ⟨here, later⟩ := List.forall_mem_cons.1 writable
      cases token with
      | word text =>
          rw [readSource]
          refine .bind (.intern _) fun v₁ id more word => .bind (ih gaps later) ?_
          rintro v₂ ⟨symbols, all⟩ more' ⟨rest, opened⟩
          exact .pure ⟨rest.word ⟨text, more'.symbol word, here⟩, opened⟩
      | gap name label =>
          rw [readSource]
          refine .check fun _ => .bind (.intern _) fun v₁ id more word => .bind (ih _ later) ?_
          rintro v₂ ⟨symbols, all⟩ more' ⟨rest, opened, all_eq, each⟩
          refine .pure ⟨rest.slot _, (name, .uniform id factors) :: opened, ?_, ?_⟩
          · rw [all_eq, List.append_assoc]
            rfl
          · refine List.forall_mem_cons.2 ⟨⟨id, rfl, label, more'.symbol word, ?_⟩, each⟩
            exact here.2.2

/-- Sets the label of a gap for a factor. -/
def setLabel (factor : Nat) (id : WordId) (gap : List Char × Labels) : List Char × Labels :=
  (gap.1, gap.2.setTarget factor id)

theorem setLabel_setLabel (factor : Nat) (id id' : WordId) (gap : List Char × Labels) :
    setLabel factor id' (setLabel factor id gap) = setLabel factor id' gap := by
  simp [setLabel, Labels.setTarget]

theorem getElem?_setTarget (gaps : Gaps) (slot factor : Nat) (id : WordId) (index : Nat) :
    (gaps.setTarget slot factor id)[index]? =
      if slot = index then gaps[index]?.map (setLabel factor id) else gaps[index]? := by
  rw [Gaps.setTarget, List.getElem?_modify]
  split
  · rfl
  · exact Option.map_id'

/-- A target side sets one label of each slot that it has a gap for. -/
theorem readTarget_spells (factor : Nat) (line : List Char) (gaps : Gaps) {tokens : List Token}
    (writable : ∀ token ∈ tokens, token.Writable marks) :
    Leaves v (readTarget factor line gaps tokens) fun v' read => SpellsWords v' marks read.1 ∧
      ∀ index, (.slot index ∉ read.1 → read.2[index]? = gaps[index]?) ∧
        (.slot index ∈ read.1 → ∃ id, v'.SpellsLabel marks id ∧
          read.2[index]? = gaps[index]?.map (setLabel factor id)) := by
  induction tokens generalizing v gaps with
  | nil => exact .pure ⟨.nil, fun index => ⟨fun _ => rfl, fun member => by cases member⟩⟩
  | cons token tokens ih =>
      obtain ⟨here, later⟩ := List.forall_mem_cons.1 writable
      cases token with
      | word text =>
          rw [readTarget]
          refine .bind (.intern _) fun v₁ id more word => .bind (ih gaps later) ?_
          rintro v₂ ⟨symbols, gaps'⟩ more' ⟨rest, labels⟩
          refine .pure ⟨rest.word ⟨text, more'.symbol word, here⟩, fun index => ?_⟩
          simpa using labels index
      | gap name label =>
          rw [readTarget]
          split
          · exact .throw _
          · next slot found =>
              refine .bind (.intern _) fun v₁ id more word => .bind (ih _ later) ?_
              rintro v₂ ⟨symbols, gaps'⟩ more' ⟨rest, labels⟩
              refine .pure ⟨rest.slot slot, fun index => ?_⟩
              obtain ⟨kept, set⟩ := labels index
              simp only [getElem?_setTarget] at kept set
              have spelled : v₂.SpellsLabel marks id := ⟨label, more'.symbol word, here.2.2⟩
              constructor
              · intro absent
                rw [List.mem_cons, not_or] at absent
                rw [kept absent.2, if_neg fun same => absent.1 (congrArg Symbol.slot same.symm)]
              · intro present
                by_cases again : .slot index ∈ symbols
                · obtain ⟨id', spelled', result⟩ := set again
                  refine ⟨id', spelled', result.trans ?_⟩
                  split
                  · rw [Option.map_map]
                    exact congrArg (Option.map · _) (funext fun gap => setLabel_setLabel ..)
                  · rfl
                · have same := (List.mem_cons.1 present).resolve_right again
                  cases same
                  exact ⟨id, spelled, (kept again).trans (if_pos rfl)⟩

end Side

/-! ### All target sides -/

/-- How the labels of a slot come out of the target sides from a factor on. A side sets its label if
it has a gap for the slot. -/
structure Labels.SetBy (v : Vocabulary) (marks : List (List Char)) (factor index : Nat)
    (targets : List (List Symbol)) (l l' : Labels) : Prop where
  source : l'.source = l.source
  length : l'.targets.length = l.targets.length
  before : ∀ i < factor, l'.targets[i]? = l.targets[i]?
  target : ∀ {i side id}, targets[i]? = some side → l'.targets[factor + i]? = some id →
    .slot index ∈ side ∧ v.SpellsLabel marks id ∨
      .slot index ∉ side ∧ l.targets[factor + i]? = some id

namespace Labels.SetBy

variable {v : Vocabulary} {marks : List (List Char)} {factor index : Nat}
  {targets : List (List Symbol)} {l l' : Labels}

theorem nil (l : Labels) : Labels.SetBy v marks factor index [] l l :=
  ⟨rfl, rfl, fun _ _ => rfl, fun here => by cases here⟩

/-- The first side comes before the others. -/
theorem cons {side : List Symbol} {l₁ : Labels}
    (first : .slot index ∉ side ∧ l₁ = l ∨
      .slot index ∈ side ∧ ∃ id, v.SpellsLabel marks id ∧ l₁ = l.setTarget factor id)
    (rest : Labels.SetBy v marks (factor + 1) index targets l₁ l') :
    Labels.SetBy v marks factor index (side :: targets) l l' := by
  have same : l₁.source = l.source ∧ l₁.targets.length = l.targets.length ∧
      ∀ i ≠ factor, l₁.targets[i]? = l.targets[i]? := by
    rcases first with ⟨-, rfl⟩ | ⟨-, id, -, rfl⟩
    · exact ⟨rfl, rfl, fun _ _ => rfl⟩
    · refine ⟨rfl, List.length_set, fun i other => ?_⟩
      exact List.getElem?_set_ne other.symm
  obtain ⟨source, length, elsewhere⟩ := same
  refine ⟨rest.source.trans source, rest.length.trans length, fun i before => ?_, ?_⟩
  · rw [rest.before i (Nat.lt_succ_of_lt before), elsewhere i (Nat.ne_of_lt before)]
  · intro i side' id here label
    cases i with
    | zero =>
        obtain rfl := Option.some.inj here
        rw [Nat.add_zero, rest.before factor (Nat.lt_succ_self _)] at label
        rcases first with ⟨absent, rfl⟩ | ⟨present, id', spelled, rfl⟩
        · exact .inr ⟨absent, label⟩
        · rw [Labels.setTarget, List.getElem?_set_self] at label
          · obtain rfl := Option.some.inj label
            exact .inl ⟨present, spelled⟩
          · have inside := (List.getElem?_eq_some_iff.1 label).1
            simpa [Labels.setTarget] using inside
    | succ i =>
        have shifted : factor + (i + 1) = factor + 1 + i := by omega
        rw [shifted] at label ⊢
        rcases rest.target here label with set | ⟨absent, kept⟩
        · exact .inl set
        · exact .inr ⟨absent, (elsewhere _ (by omega)).symm.trans kept⟩

end Labels.SetBy

/-- What the target sides make of the head and of the slots. -/
structure ReadTargets (v : Vocabulary) (marks : List (List Char)) (factor : Nat) (head : Labels)
    (gaps : Gaps) (sides : Nat) (targets : List (List Symbol)) (head' : Labels) (gaps' : Gaps) :
    Prop where
  length : targets.length = sides
  words : ∀ side ∈ targets, SpellsWords v marks side
  head_source : head'.source = head.source
  head_length : head'.targets.length = head.targets.length
  head_targets : ∀ id ∈ head'.targets, id ∈ head.targets ∨ v.SpellsLabel marks id
  labels : ∀ {index : Nat} {gap : List Char × Labels}, gaps[index]? = some gap →
    ∃ l', gaps'[index]? = some (gap.1, l') ∧
      Labels.SetBy v marks factor index targets gap.2 l'

/-- The labels of each slot were uniform before the target sides were read. -/
theorem ReadTargets.set_of_uniform {v : Vocabulary} {marks : List (List Char)}
    {factor factors sides : Nat} {head head' : Labels} {gaps gaps' : Gaps}
    {targets : List (List Symbol)} {P : WordId → Prop}
    (read : ReadTargets v marks factor head gaps sides targets head' gaps')
    (length : gaps'.length = gaps.length)
    (uniform : ∀ gap ∈ gaps, ∃ id, gap.2 = .uniform id factors ∧ P id) {index : Nat} {l : Labels}
    (here : (gaps'.map (·.2))[index]? = some l) :
    ∃ id, P id ∧ Labels.SetBy v marks factor index targets (.uniform id factors) l := by
  obtain ⟨gap', here', rfl⟩ := Option.map_eq_some_iff.1 ((List.getElem?_map ..).symm.trans here)
  have inside : index < gaps.length := length ▸ (List.getElem?_eq_some_iff.1 here').1
  obtain ⟨l', there, labels⟩ := read.labels (List.getElem?_eq_getElem inside)
  obtain ⟨id, gap_eq, spelled⟩ := uniform _ (List.getElem_mem inside)
  cases here'.symm.trans there
  exact ⟨id, spelled, gap_eq ▸ labels⟩

theorem readTargets_spells {marks : List (List Char)} (line : List Char) (factor : Nat)
    {v : Vocabulary} (head : Labels) (gaps : Gaps) {texts : List (List Char)}
    (free : ∀ text ∈ texts, ∀ mark ∈ marks, ¬ mark <:+: text) :
    Leaves v (readTargets line factor head gaps texts) fun v' read =>
      ReadTargets v' marks factor head gaps texts.length read.1 read.2.1 read.2.2 := by
  induction texts generalizing v factor head gaps with
  | nil =>
      exact .pure ⟨rfl, by simp, rfl, rfl, fun _ old => .inl old,
        fun {_ gap} here => ⟨gap.2, here, .nil _⟩⟩
  | cons text texts ih =>
      obtain ⟨free_here, free_later⟩ := List.forall_mem_cons.1 free
      rw [readTargets]
      refine .bind (.lift _) fun v₁ side _ read => ?_
      obtain ⟨writable, label_safe⟩ := SideText.writable_of_read free_here read
      extract_lets rest
      -- The head as this side leaves it: kept, or with a label of its own.
      have rest_spells : ∀ {v : Vocabulary} {head₁ : Labels}, head₁.source = head.source →
          head₁.targets.length = head.targets.length →
          (∀ id ∈ head₁.targets, id ∈ head.targets ∨ v.SpellsLabel marks id) →
          Leaves v (rest head₁) fun v' read => ReadTargets v' marks factor head gaps
            (texts.length + 1) read.1 read.2.1 read.2.2 := by
        intro v head₁ head_source head_length head_targets
        refine .bind (readTarget_spells factor line gaps writable) ?_
        rintro v₂ ⟨target, gaps₂⟩ more ⟨words, slots⟩
        refine .bind (ih (factor + 1) head₁ gaps₂ free_later) ?_
        rintro v₃ ⟨targets, head₃, gaps₃⟩ later read
        refine .pure ⟨congrArg (· + 1) read.length,
          List.forall_mem_cons.2 ⟨words.mono later, read.words⟩,
          read.head_source.trans head_source, read.head_length.trans head_length,
          fun id listed => ?_, fun {index gap} here => ?_⟩
        · rcases read.head_targets id listed with old | new
          · exact (head_targets id old).imp_right fun label => label.mono (later.trans more)
          · exact .inr new
        · obtain ⟨kept, set⟩ := slots index
          rw [here] at kept set
          by_cases mentioned : .slot index ∈ target
          · obtain ⟨id, spelled, here₂⟩ := set mentioned
            obtain ⟨l', here₃, labels⟩ := read.labels here₂
            exact ⟨l', here₃, .cons (.inr ⟨mentioned, id, spelled.mono later, rfl⟩) labels⟩
          · obtain ⟨l', here₃, labels⟩ := read.labels (kept mentioned)
            exact ⟨l', here₃, .cons (.inl ⟨mentioned, rfl⟩) labels⟩
      split
      · exact .bind (.pure (P := fun _ head₁ => head₁ = head) rfl) fun v₂ head₁ _ same => by
          subst same
          exact rest_spells rfl rfl fun _ old => .inl old
      · next label named =>
          refine .bind (.intern _) fun v₂ id more word => ?_
          refine .bind (.pure (P := fun _ head₁ => head₁ = head.setTarget factor id) rfl) ?_
          rintro v₃ head₁ more' rfl
          refine rest_spells rfl List.length_set fun id' listed => ?_
          refine (List.mem_or_eq_of_mem_set listed).imp_right ?_
          rintro rfl
          exact ⟨label, more'.symbol word, label_safe label named⟩

/-! ### Features -/

theorem readFeature_spells {marks : List (List Char)} {pair : List Char} (v : Vocabulary)
    (safe : Text.Safe marks pair) :
    Leaves v (readFeature pair) fun v' entry => v'.SpellsLabel marks entry.1 := by
  unfold readFeature
  split
  · exact .throw _
  · next name value parted =>
      refine .check fun nonempty => ?_
      split
      · exact .throw _
      · refine .bind (.intern _) fun v' id _ word => .pure ⟨name, word, ?_, safe.of_isInfix ?_⟩
        · exact fun empty => nonempty (by rw [empty]; rfl)
        · have parts : ∃ mark, pair = name ++ mark :: value := by
            unfold splitPair? at parted
            rcases Option.or_eq_some_iff.1 parted with first | ⟨-, second⟩
            · exact ⟨_, Text.eq_of_cutLast?_eq_some first⟩
            · exact ⟨_, Text.eq_of_cutLast?_eq_some second⟩
          obtain ⟨mark, rfl⟩ := parts
          exact (List.prefix_append _ _).isInfix

theorem readFeatures_spells {marks : List (List Char)} {column : List Char} (v : Vocabulary)
    (free : ∀ mark ∈ marks, ¬ mark <:+: column) :
    Leaves v (readFeatures column)
      fun v' f => ∀ entry ∈ f.entries, v'.SpellsLabel marks entry.1 := by
  refine .bind (.mapM (Q := fun v (entry : WordId × Float) => v.SpellsLabel marks entry.1)
    (fun more label => label.mono more)
    fun v pair listed => readFeature_spells v (Text.safe_of_mem_words free listed)) ?_
  intro v' entries _ spelled
  exact .pure fun entry listed => spelled entry (Features.mem_ofList listed)

/-! ### Rules -/

/-- What it takes to write a rule down. -/
structure Rule.Writable (factors : Nat) (v : Vocabulary) (r : Rule) : Prop where
  wellFormed : r.WellFormed
  head_length : r.head.targets.length = factors
  targets_length : r.targets.length = factors
  slots_length : ∀ l ∈ r.slots, l.targets.length = factors
  below : ∀ side ∈ r.targets, SlotsBelow r.slots.length side
  source : SpellsWords v [columnMark] r.source
  targets : ∀ side ∈ r.targets, SpellsWords v [columnMark, factorMark] side
  head_source : v.SpellsLabel [columnMark] r.head.source
  head_targets : ∀ id ∈ r.head.targets,
    id = r.head.source ∨ v.SpellsLabel [columnMark, factorMark] id
  slot_source : ∀ l ∈ r.slots, v.SpellsLabel [columnMark] l.source
  slot_target : ∀ {index i : Nat} {l : Labels} {side : List Symbol} {id : WordId},
    r.slots[index]? = some l → r.targets[i]? = some side → l.targets[i]? = some id →
    .slot index ∈ side ∧ v.SpellsLabel [columnMark, factorMark] id ∨
      .slot index ∉ side ∧ id = l.source
  features : ∀ entry ∈ r.features.entries, v.SpellsLabel [columnMark] entry.1

theorem Rule.Writable.mono {factors : Nat} {v v' : Vocabulary} {r : Rule}
    (h : r.Writable factors v) (more : v'.Extends v) : r.Writable factors v' where
  wellFormed := h.wellFormed
  head_length := h.head_length
  targets_length := h.targets_length
  slots_length := h.slots_length
  below := h.below
  source := h.source.mono more
  targets side listed := (h.targets side listed).mono more
  head_source := h.head_source.mono more
  head_targets id listed := (h.head_targets id listed).imp_right fun label => label.mono more
  slot_source l listed := (h.slot_source l listed).mono more
  slot_target slot side label := (h.slot_target slot side label).imp_left fun set =>
    ⟨set.1, set.2.mono more⟩
  features entry listed := (h.features entry listed).mono more

/-- What is known of every value of a reader is known of the one it leaves. -/
theorem Interning.Leaves.and_returns {ε α : Type} {v : Vocabulary} {x : Interning ε α}
    {P : Vocabulary → α → Prop} {Q : α → Prop} (h : Leaves v x P) (always : Interning.Returns x Q) :
    Leaves v x fun v' a => P v' a ∧ Q a where
  grows := h.grows
  returns result := ⟨h.returns result, always v _ _ (Prod.ext result rfl)⟩

/-- The label of the source head is the one that is named, or `X`. -/
theorem headLabel_spells {v : Vocabulary} {head : Option (List Char)} {id : WordId}
    (word : v.symbol id = .ok ((head.map String.ofList).getD defaultLabel))
    (safe : ∀ text, head = some text → text ≠ [] ∧ Text.Safe [columnMark] text) :
    v.SpellsLabel [columnMark] id := by
  cases head with
  | none => exact ⟨['X'], word, List.cons_ne_nil _ _, by decide, by decide⟩
  | some text => exact ⟨text, word, safe text rfl⟩

theorem ruleColumns_free {line column : List Char} (listed : column ∈ ruleColumns line) :
    ∀ mark ∈ [columnMark], ¬ mark <:+: column := by
  intro mark same
  obtain rfl := List.mem_singleton.1 same
  exact Text.free_of_mem_columns listed

/-- A target side holds no mark between columns, as its column does not. -/
theorem factorColumns_free {column side : List Char} (free : ¬ columnMark <:+: column)
    (listed : side ∈ factorColumns column) :
    ∀ mark ∈ [columnMark, factorMark], ¬ mark <:+: side := by
  intro mark known holds
  rcases List.mem_pair.1 known with rfl | rfl
  · exact free (holds.trans (Text.infix_of_mem_columns listed))
  · exact Text.free_of_mem_columns listed holds

/-- A rule that is read can be written down. -/
theorem readRule_writable (factors : Nat) (line : List Char) (v : Vocabulary) :
    Leaves v (readRule factors line) fun v' r => r.Writable factors v' := by
  have known := (readRule_wellFormed factors line).and (readRule_targets factors line)
  suffices spelled : Leaves v (readRule factors line) fun v' r =>
      r.WellFormed ∧ (∀ side ∈ r.targets, SlotsBelow r.slots.length side) →
        r.Writable factors v' from
    (spelled.and_returns known).mono fun v' r _ both => both.1 both.2
  rw [readRule]
  split
  · next source target features more columns =>
      have free : ∀ column ∈ ruleColumns line, ∀ mark ∈ [columnMark], ¬ mark <:+: column :=
        fun _ listed => ruleColumns_free listed
      rw [columns] at free
      have free_target : ∀ text ∈ factorColumns target,
          ∀ mark ∈ [columnMark, factorMark], ¬ mark <:+: text := fun text listed =>
        factorColumns_free (free target (by simp) _ (by simp)) listed
      refine .bind (.lift _) fun v₁ side _ read => .check fun _ => ?_
      obtain ⟨writable, label_safe⟩ := SideText.writable_of_read (free source (by simp)) read
      refine .bind (.intern _) fun v₂ label _ word => ?_
      have label_spelled := headLabel_spells word label_safe
      refine .bind (readSource_spells factors line [] writable) ?_
      rintro v₃ ⟨symbols, gaps⟩ more₃ ⟨words, opened, gaps_eq, uniform⟩
      obtain rfl : gaps = opened := gaps_eq
      refine .check fun sides => .bind ((readTargets_spells line 0 _ gaps free_target).and_returns
        (readTargets_length line 0 _ gaps _)) ?_
      rintro v₄ ⟨targets, head, gaps'⟩ more₄ ⟨read, slots_length⟩
      refine .bind ((readFeatures_spells v₄ (free features (by simp))).adapt _) ?_
      rintro v₅ features more₅ features_spelled
      refine .pure fun known => ?_
      obtain ⟨wellFormed, below⟩ := known
      have later := more₅.trans more₄
      have factors_eq : (factorColumns target).length = factors := of_not_not sides
      have slots : ∀ {index : Nat} {l : Labels}, (gaps'.map (·.2))[index]? = some l →
          ∃ id, v₃.SpellsLabel [columnMark] id ∧ Labels.SetBy v₄ [columnMark, factorMark] 0 index
            targets (.uniform id factors) l := fun here =>
        read.set_of_uniform slots_length uniform here
      constructor
      case wellFormed => exact wellFormed
      case below => exact below
      case head_length => exact read.head_length.trans (List.length_replicate ..)
      case targets_length => exact read.length.trans factors_eq
      case slots_length =>
        intro l listed
        obtain ⟨index, here⟩ := List.mem_iff_getElem?.1 listed
        obtain ⟨id, -, labels⟩ := slots here
        exact labels.length.trans (List.length_replicate ..)
      case source => exact words.mono later
      case targets => exact fun side listed => (read.words side listed).mono more₅
      case head_source => exact read.head_source ▸ label_spelled.mono (later.trans more₃)
      case head_targets =>
        intro id listed
        refine (read.head_targets id listed).imp (fun old => ?_) fun new => new.mono more₅
        exact (List.eq_of_mem_replicate old).trans read.head_source.symm
      case slot_source =>
        intro l listed
        obtain ⟨index, here⟩ := List.mem_iff_getElem?.1 listed
        obtain ⟨id, spelled, labels⟩ := slots here
        exact labels.source ▸ spelled.mono later
      case slot_target =>
        intro index i l side id here there label
        obtain ⟨id₀, -, labels⟩ := slots here
        rcases labels.target there ((Nat.zero_add i).symm ▸ label) with
          ⟨present, spelled⟩ | ⟨absent, kept⟩
        · exact .inl ⟨present, spelled.mono more₅⟩
        · refine .inr ⟨absent, ?_⟩
          rw [labels.source]
          exact List.eq_of_mem_replicate (List.mem_of_getElem? kept)
      case features => exact features_spelled
  · exact .throw _

end PackedForest
