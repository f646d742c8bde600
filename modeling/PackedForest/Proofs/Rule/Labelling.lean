import Mathlib.Data.List.Nodup
import PackedForest.Proofs.Related
import PackedForest.Proofs.Rule.Acceptance

/-!
# The labels that a line writes for its gaps

A gap of the source side opens a slot under the label written there, and a target side may write
another label for it. No label of the source side is lost. A target side may name a gap several
times, and the label that it writes last is the one that counts for its factor
(`readRule_labels`): the others are overridden without a word. So a rule has all labels of its line
if and only if no target side writes two different labels for one gap.
-/

namespace PackedForest

open Interning (Leaves)
open Text (words)

/-! ### Labels as they are written -/

/-- The label that a token writes for the gap of some name. -/
def Token.labelFor? (name : List Char) : Token → Option (List Char)
  | .word _ => none
  | .gap other label => if other = name then some label else none

theorem Token.labelFor?_eq_some_iff {name label : List Char} {token : Token} :
    token.labelFor? name = some label ↔ token = .gap name label := by
  cases token with
  | word text => simp [labelFor?]
  | gap other label' =>
      rw [labelFor?, Option.ite_none_right_eq_some, Option.some_inj, Token.gap.injEq]

/-- The label that tokens write last for a gap. -/
def lastLabel? (tokens : List Token) (name : List Char) : Option (List Char) :=
  (tokens.filterMap (Token.labelFor? name)).getLast?

/-- The labels that the words before a head write for a gap, in their order. -/
def labelsFor (side : List (List Char)) (name : List Char) : List (List Char) :=
  ((headless side).map Token.ofText).filterMap (Token.labelFor? name)

theorem mem_labelsFor {side : List (List Char)} {name label : List Char} :
    label ∈ labelsFor side name ↔ ∃ text ∈ headless side, Placeholder text name label := by
  rw [labelsFor, List.filterMap_map, List.mem_filterMap]
  refine exists_congr fun text => and_congr_right' ?_
  rw [Function.comp_apply, Token.labelFor?_eq_some_iff, Token.ofText_eq_gap_iff]

/-- The side writes one label at most for each gap. -/
def SingleLabels (side : List (List Char)) : Prop :=
  ∀ name, ∀ label ∈ labelsFor side name, ∀ label' ∈ labelsFor side name, label = label'

section LastLabel

variable {tokens : List Token} {name : List Char}

/-- Later labels come before the one that is written here. -/
theorem lastLabel?_gap (label : List Char) :
    lastLabel? (.gap name label :: tokens) name = some ((lastLabel? tokens name).getD label) := by
  rw [lastLabel?, List.filterMap_cons_some (Token.labelFor?_eq_some_iff.2 rfl), List.getLast?_cons,
    lastLabel?]

theorem lastLabel?_other {other : List Char} (label : List Char) (apart : other ≠ name) :
    lastLabel? (.gap other label :: tokens) name = lastLabel? tokens name := by
  have silent : Token.labelFor? name (.gap other label) = none := if_neg apart
  rw [lastLabel?, List.filterMap_cons_none silent, lastLabel?]

end LastLabel

/-! ### Gaps by their names -/

namespace Gaps

variable {gaps gaps' : Gaps} {name : List Char} {slot : Nat} {gap : List Char × Labels}

theorem fst_of_slot? (found : gaps.slot? name = some slot) (here : gaps[slot]? = some gap) :
    gap.1 = name := by
  obtain ⟨inside, named, -⟩ := List.findIdx?_eq_some_iff_getElem.1 found
  obtain ⟨-, rfl⟩ := List.getElem?_eq_some_iff.1 here
  exact of_decide_eq_true named

theorem slot?_of_getElem? (distinct : (gaps.map (·.1)).Nodup) (here : gaps[slot]? = some gap) :
    gaps.slot? gap.1 = some slot := by
  have present : (gaps.slot? gap.1).isSome :=
    isSome_slot?_iff.2 (List.mem_map_of_mem (List.mem_of_getElem? here))
  obtain ⟨first, found⟩ := Option.isSome_iff_exists.1 present
  obtain ⟨inside, -⟩ := List.findIdx?_eq_some_iff_getElem.1 found
  have there := List.getElem?_eq_getElem inside
  have same : (gaps.map (·.1))[first]? = (gaps.map (·.1))[slot]? := by
    rw [List.getElem?_map, List.getElem?_map, there, here, Option.map_some, Option.map_some,
      fst_of_slot? found there]
  have inside_names : first < (gaps.map (·.1)).length := by rwa [List.length_map]
  rwa [← (List.getElem?_inj inside_names distinct).1 same]

end Gaps

/-! ### One side -/

/-- The tokens of a side are read as symbols, those of gaps as the slots of their names. -/
def SlotsOf (gaps : Gaps) : List Token → List Symbol → Prop :=
  List.Forall₂ fun token symbol => ∀ name label, token = .gap name label →
    ∃ slot, symbol = .slot slot ∧ gaps.slot? name = some slot

theorem SlotsOf.congr {gaps gaps' : Gaps} (names : gaps'.map (·.1) = gaps.map (·.1))
    {tokens : List Token} {symbols : List Symbol} (h : SlotsOf gaps' tokens symbols) :
    SlotsOf gaps tokens symbols :=
  h.imp fun _ _ read name label written =>
    (read name label written).imp fun _ found => ⟨found.1, Gaps.slot?_congr names name ▸ found.2⟩

/-- A slot is opened under the label of its gap, for every factor. -/
theorem readSource_labels (factors : Nat) (line : List Char) (gaps : Gaps) (tokens : List Token)
    (v : Vocabulary) : Leaves v (readSource factors line gaps tokens) fun v' read =>
      (∃ opened, read.2 = gaps ++ opened ∧
        ∀ gap ∈ opened, ∃ id, gap.2 = .uniform id factors) ∧
      List.Forall₂ (fun token symbol => ∀ name label, token = .gap name label →
        ∃ slot id, symbol = .slot slot ∧ read.2[slot]? = some (name, .uniform id factors) ∧
          v'.symbol id = .ok (String.ofList label)) tokens read.1 := by
  induction tokens generalizing gaps v with
  | nil => exact .pure ⟨⟨[], (List.append_nil gaps).symm, by simp⟩, .nil⟩
  | cons token tokens ih =>
      cases token with
      | word text =>
          rw [readSource]
          refine .bind (.intern _) fun v₁ id _ _ => .bind (ih gaps v₁) ?_
          rintro v₂ ⟨symbols, all⟩ _ ⟨opened, rest⟩
          refine .pure ⟨opened, .cons ?_ rest⟩
          rintro _ _ ⟨⟩
      | gap name label =>
          rw [readSource]
          refine .check fun _ => .bind (.intern _) fun v₁ id _ word => .bind (ih _ v₁) ?_
          rintro v₂ ⟨symbols, all⟩ more ⟨⟨opened, all_eq, uniform⟩, rest⟩
          refine .pure ⟨⟨_, all_eq.trans (List.append_assoc ..),
            List.forall_mem_cons.2 ⟨⟨id, rfl⟩, uniform⟩⟩, .cons ?_ rest⟩
          rintro _ _ ⟨⟩
          refine ⟨gaps.length, id, rfl, ?_, more.symbol word⟩
          dsimp only at all_eq ⊢
          rw [all_eq, List.append_assoc, List.getElem?_append_right (Nat.le_refl _), Nat.sub_self]
          rfl

/-- The labels of a slot take a label for one factor, or stay if there is none. -/
def Labels.Takes (v : Vocabulary) (factor : Nat) (l l' : Labels) : Option (List Char) → Prop
  | none => l' = l
  | some label => ∃ id, v.symbol id = .ok (String.ofList label) ∧ l' = l.setTarget factor id

/-- A target side leaves its last labels. -/
theorem readTarget_labels (factor : Nat) (line : List Char) {gaps : Gaps}
    (distinct : (gaps.map (·.1)).Nodup) (tokens : List Token) (v : Vocabulary) :
    Leaves v (readTarget factor line gaps tokens) fun v' read => SlotsOf gaps tokens read.1 ∧
      ∀ {slot : Nat} {gap : List Char × Labels}, gaps[slot]? = some gap →
        ∃ l', read.2[slot]? = some (gap.1, l') ∧
          gap.2.Takes v' factor l' (lastLabel? tokens gap.1) := by
  induction tokens generalizing gaps v with
  | nil => exact .pure ⟨.nil, fun {_ gap} here => ⟨gap.2, here, rfl⟩⟩
  | cons token tokens ih =>
      cases token with
      | word text =>
          rw [readTarget]
          refine .bind (.intern _) fun v₁ id _ _ => .bind (ih distinct v₁) ?_
          rintro v₂ ⟨symbols, gaps'⟩ _ ⟨rest, labels⟩
          refine .pure ⟨.cons ?_ rest, labels⟩
          rintro _ _ ⟨⟩
      | gap name label =>
          rw [readTarget]
          split
          · exact .throw _
          · next slot found =>
              refine .bind (.intern _) fun v₁ id _ word => ?_
              have names := gaps.map_fst_setTarget slot factor id
              refine .bind (ih (names ▸ distinct) v₁) ?_
              rintro v₂ ⟨symbols, gaps'⟩ more ⟨rest, labels⟩
              refine .pure ⟨.cons ?_ (rest.congr names), fun {index gap} here => ?_⟩
              · rintro _ _ ⟨⟩
                exact ⟨slot, rfl, found⟩
              have after := getElem?_setTarget gaps slot factor id index
              rw [here] at after
              split at after
              · next same =>
                  subst same
                  obtain rfl := Gaps.fst_of_slot? found here
                  obtain ⟨l', there, taken⟩ := labels after
                  refine ⟨l', there, ?_⟩
                  rw [lastLabel?_gap]
                  -- A later label replaces the one that was just set.
                  cases later : lastLabel? tokens gap.1 with
                  | none =>
                      rw [setLabel, later] at taken
                      exact ⟨id, more.symbol word, taken⟩
                  | some label' =>
                      rw [setLabel, later] at taken
                      obtain ⟨id', word', rfl⟩ := taken
                      exact ⟨id', word', by simp [Labels.setTarget]⟩
              · next other =>
                  have apart : name ≠ gap.1 := fun same => other <| Option.some.inj <|
                    found.symm.trans (same ▸ Gaps.slot?_of_getElem? distinct here)
                  rw [lastLabel?_other label apart]
                  exact labels after

/-! ### All target sides -/

/-- How the labels of a slot come out of the target sides from a factor on: each side that writes
labels for the gap leaves its last one. -/
structure Labels.Written (v : Vocabulary) (factor : Nat) (sides : List (List Char))
    (name : List Char) (l l' : Labels) : Prop where
  source : l'.source = l.source
  before : ∀ i < factor, l'.targets[i]? = l.targets[i]?
  target : ∀ {j : Nat} {side last : List Char}, sides[j]? = some side →
    (labelsFor (words side) name).getLast? = some last → factor + j < l.targets.length →
    ∃ id, l'.targets[factor + j]? = some id ∧ v.symbol id = .ok (String.ofList last)

namespace Labels

variable {v v' : Vocabulary} {factor : Nat} {l l₁ l' : Labels}

theorem Takes.mono {last : Option (List Char)} (h : l.Takes v factor l' last)
    (more : v'.Extends v) : l.Takes v' factor l' last := by
  cases last with
  | none => exact h
  | some label => exact h.imp fun _ taken => ⟨more.symbol taken.1, taken.2⟩

theorem Takes.source {last : Option (List Char)} (h : l.Takes v factor l' last) :
    l'.source = l.source := by
  cases last with
  | none => rw [h]
  | some label =>
      obtain ⟨id, -, rfl⟩ := h
      rfl

theorem Takes.length {last : Option (List Char)} (h : l.Takes v factor l' last) :
    l'.targets.length = l.targets.length := by
  cases last with
  | none => rw [h]
  | some label =>
      obtain ⟨id, -, rfl⟩ := h
      exact List.length_set

theorem Takes.other {last : Option (List Char)} (h : l.Takes v factor l' last) {i : Nat}
    (other : i ≠ factor) : l'.targets[i]? = l.targets[i]? := by
  cases last with
  | none => rw [h]
  | some label =>
      obtain ⟨id, -, rfl⟩ := h
      exact List.getElem?_set_ne other.symm

theorem Written.nil (name : List Char) (l : Labels) : Labels.Written v factor [] name l l :=
  ⟨rfl, fun _ _ => rfl, fun here => by cases here⟩

/-- The first side comes before the others, which leave what it has set. -/
theorem Written.cons {side name : List Char} {sides : List (List Char)}
    (first : l.Takes v factor l₁ (labelsFor (words side) name).getLast?)
    (rest : Labels.Written v (factor + 1) sides name l₁ l') :
    Labels.Written v factor (side :: sides) name l l' where
  source := rest.source.trans first.source
  before i before :=
    (rest.before i (Nat.lt_succ_of_lt before)).trans (first.other (Nat.ne_of_lt before))
  target {j side' last} here written inside := by
    cases j with
    | zero =>
        obtain rfl := Option.some.inj here
        rw [written] at first
        obtain ⟨id, word, rfl⟩ := first
        refine ⟨id, ?_, word⟩
        rw [Nat.add_zero] at inside ⊢
        rw [rest.before factor (Nat.lt_succ_self _)]
        exact List.getElem?_set_self inside
    | succ j =>
        have shifted : factor + (j + 1) = factor + 1 + j := by omega
        rw [shifted] at inside ⊢
        exact rest.target here written (first.length.symm ▸ inside)

end Labels

/-- What target sides make of their texts and of the slots, from a factor on. -/
structure TargetsLabelled (v : Vocabulary) (factor : Nat) (gaps : Gaps) (texts : List (List Char))
    (targets : List (List Symbol)) (gaps' : Gaps) : Prop where
  length : targets.length = texts.length
  slots : ∀ {j : Nat} {text : List Char} {symbols : List Symbol}, texts[j]? = some text →
    targets[j]? = some symbols → SlotsOf gaps ((headless (words text)).map Token.ofText) symbols
  labels : ∀ {slot : Nat} {gap : List Char × Labels}, gaps[slot]? = some gap →
    ∃ l', gaps'[slot]? = some (gap.1, l') ∧ Labels.Written v factor texts gap.1 gap.2 l'

namespace TargetsLabelled

variable {v : Vocabulary} {factor : Nat} {gaps gaps₁ gaps' : Gaps} {text : List Char}
  {texts : List (List Char)} {target : List Symbol} {targets : List (List Symbol)}

theorem nil (v : Vocabulary) (factor : Nat) (gaps : Gaps) :
    TargetsLabelled v factor gaps [] [] gaps where
  length := rfl
  slots here := by cases here
  labels {_ gap} here := ⟨gap.2, here, .nil _ _⟩

theorem cons (names : gaps₁.map (·.1) = gaps.map (·.1))
    (slots : SlotsOf gaps ((headless (words text)).map Token.ofText) target)
    (labels : ∀ {slot : Nat} {gap : List Char × Labels}, gaps[slot]? = some gap →
      ∃ l₁, gaps₁[slot]? = some (gap.1, l₁) ∧
        gap.2.Takes v factor l₁ (labelsFor (words text) gap.1).getLast?)
    (rest : TargetsLabelled v (factor + 1) gaps₁ texts targets gaps') :
    TargetsLabelled v factor gaps (text :: texts) (target :: targets) gaps' where
  length := congrArg (· + 1) rest.length
  slots {j text' symbols} text_here target_here := by
    cases j with
    | zero =>
        cases text_here
        cases target_here
        exact slots
    | succ j => exact (rest.slots text_here target_here).congr names
  labels here := by
    obtain ⟨l₁, there, taken⟩ := labels here
    obtain ⟨l', there', written⟩ := rest.labels there
    exact ⟨l', there', .cons taken written⟩

end TargetsLabelled

theorem readTargets_labels (line : List Char) (factor : Nat) (head : Labels) {gaps : Gaps}
    (distinct : (gaps.map (·.1)).Nodup) (texts : List (List Char)) (v : Vocabulary) :
    Leaves v (readTargets line factor head gaps texts) fun v' read =>
      TargetsLabelled v' factor gaps texts read.1 read.2.2 := by
  induction texts generalizing v factor head gaps with
  | nil => exact .pure (.nil v factor gaps)
  | cons text texts ih =>
      rw [readTargets]
      refine .bind (.lift _) fun v₁ side _ read => ?_
      extract_lets rest
      have tokens := SideText.tokens_of_read read
      have rest_labels : ∀ (v : Vocabulary) (head : Labels), Leaves v (rest head) fun v' read =>
          TargetsLabelled v' factor gaps (text :: texts) read.1 read.2.2 := by
        intro v head
        refine .bind ((readTarget_labels factor line distinct side.tokens v).and_returns
          (readTarget_names factor line gaps side.tokens)) ?_
        rintro v₂ ⟨target, gaps₂⟩ _ ⟨⟨slots, labels⟩, names⟩
        refine .bind (ih (factor + 1) head (names ▸ distinct) v₂) ?_
        rintro v₃ ⟨targets, head₃, gaps₃⟩ later labelled
        rw [tokens] at slots labels
        refine .pure (.cons names slots (fun here => ?_) labelled)
        exact (labels here).imp fun _ left => ⟨left.1, left.2.mono later⟩
      split
      · exact .bind (.pure (P := fun _ _ => True) trivial) fun v₂ head _ _ => rest_labels v₂ head
      · refine .bind (.intern _) fun v₂ id _ _ => ?_
        exact .bind (.pure (P := fun _ _ => True) trivial) fun v₃ head _ _ => rest_labels v₃ head

/-! ### Rules -/

namespace Rule

/-- The label of a slot for a side spells this text. The source side is factor zero. -/
def HasLabel (v : Vocabulary) (r : Rule) (factor slot : Nat) (label : List Char) : Prop :=
  ∃ l id, r.slots[slot]? = some l ∧ l.toList[factor]? = some id ∧
    v.symbol id = .ok (String.ofList label)

/-- A word that writes a gap is read as a slot whose label for the side is the one written. -/
def Keeps (v : Vocabulary) (r : Rule) (factor : Nat) (text : List Char) (symbol : Symbol) : Prop :=
  ∀ name label, Placeholder text name label →
    ∃ slot, symbol = .slot slot ∧ r.HasLabel v factor slot label

/-- A word that writes a gap is read as a slot whose label for the side is the last that the side
writes for the gap. -/
def KeepsLast (v : Vocabulary) (r : Rule) (factor : Nat) (side : List (List Char))
    (text : List Char) (symbol : Symbol) : Prop :=
  ∀ name label, Placeholder text name label → ∃ slot last, symbol = .slot slot ∧
    (labelsFor side name).getLast? = some last ∧ r.HasLabel v factor slot last

/-- The slots have all labels that the sides write for their gaps. -/
structure KeepsLabels (v : Vocabulary) (r : Rule) (source : List Char) (sides : List (List Char)) :
    Prop where
  source : List.Forall₂ (r.Keeps v 0) (headless (words source)) r.source
  targets : ∀ {j : Nat} {side : List Char} {symbols : List Symbol}, sides[j]? = some side →
    r.targets[j]? = some symbols →
    List.Forall₂ (r.Keeps v (j + 1)) (headless (words side)) symbols

/-- The slots have the labels of the source side, and of each target side those that it writes
last. -/
structure KeepsLastLabels (v : Vocabulary) (r : Rule) (source : List Char)
    (sides : List (List Char)) : Prop where
  source : List.Forall₂ (r.Keeps v 0) (headless (words source)) r.source
  length : r.targets.length = sides.length
  targets : ∀ {j : Nat} {side : List Char} {symbols : List Symbol}, sides[j]? = some side →
    r.targets[j]? = some symbols →
    List.Forall₂ (r.KeepsLast v (j + 1) (words side)) (headless (words side)) symbols

variable {v : Vocabulary} {r : Rule}

/-- A slot has one label for a side. -/
theorem HasLabel.unique {factor slot : Nat} {label label' : List Char}
    (h : r.HasLabel v factor slot label) (h' : r.HasLabel v factor slot label') :
    label = label' := by
  obtain ⟨l, id, opened, here, word⟩ := h
  obtain ⟨l', id', opened', here', word'⟩ := h'
  cases opened.symm.trans opened'
  cases here.symm.trans here'
  exact String.ofList_injective (Except.ok.inj (word.symm.trans word'))

/-- The last label of a gap is its only one. -/
theorem forall₂_keeps_of_singleLabels {factor : Nat} {side : List (List Char)}
    {symbols : List Symbol} (single : SingleLabels side)
    (last : List.Forall₂ (r.KeepsLast v factor side) (headless side) symbols) :
    List.Forall₂ (r.Keeps v factor) (headless side) symbols := by
  refine (forall₂_mem last).imp ?_
  rintro text symbol ⟨listed, -, kept⟩ name label form
  obtain ⟨slot, found, symbol_eq, found_last, labelled⟩ := kept name label form
  have same := single name label (mem_labelsFor.2 ⟨text, listed, form⟩) found
    (List.mem_of_getLast? found_last)
  exact ⟨slot, symbol_eq, same ▸ labelled⟩

/-- A label that is kept is the last one of its gap. -/
theorem singleLabels_of_forall₂_keeps {factor : Nat} {side : List (List Char)}
    {symbols : List Symbol} (kept : List.Forall₂ (r.Keeps v factor) (headless side) symbols)
    (last : List.Forall₂ (r.KeepsLast v factor side) (headless side) symbols) :
    SingleLabels side := by
  have is_last : ∀ {name label : List Char}, label ∈ labelsFor side name →
      (labelsFor side name).getLast? = some label := by
    intro name label member
    obtain ⟨text, listed, form⟩ := mem_labelsFor.1 member
    obtain ⟨symbol, -, keeps, keeps_last⟩ := exists_of_forall₂_left (forall₂_and kept last) listed
    obtain ⟨slot, symbol_eq, labelled⟩ := keeps name label form
    obtain ⟨slot', found, symbol_eq', found_last, labelled'⟩ := keeps_last name label form
    cases symbol_eq.symm.trans symbol_eq'
    rw [found_last, labelled.unique labelled']
  intro name label member label' member'
  exact Option.some.inj ((is_last member).symm.trans (is_last member'))

theorem KeepsLastLabels.keepsLabels_iff {source : List Char} {sides : List (List Char)}
    (h : r.KeepsLastLabels v source sides) :
    r.KeepsLabels v source sides ↔ ∀ side ∈ sides, SingleLabels (words side) := by
  constructor
  · intro kept side listed
    obtain ⟨j, here⟩ := List.mem_iff_getElem?.1 listed
    have inside : j < r.targets.length := h.length ▸ (List.getElem?_eq_some_iff.1 here).1
    have there := List.getElem?_eq_getElem inside
    exact singleLabels_of_forall₂_keeps (kept.targets here there) (h.targets here there)
  · intro single
    refine ⟨h.source, fun here there => ?_⟩
    exact forall₂_keeps_of_singleLabels (single _ (List.mem_of_getElem? here))
      (h.targets here there)

end Rule

namespace TargetsLabelled

variable {v v' : Vocabulary} {gaps gaps' : Gaps} {texts : List (List Char)}
  {targets : List (List Symbol)} {r : Rule} (h : TargetsLabelled v 0 gaps texts targets gaps')
  (slots : r.slots = gaps'.map (·.2))

include h slots

/-- The label of the source side stays as it was when the slot was opened. -/
theorem hasLabel_source {slot : Nat} {name label : List Char} {l : Labels}
    (here : gaps[slot]? = some (name, l)) (word : v'.symbol l.source = .ok (String.ofList label)) :
    r.HasLabel v' 0 slot label := by
  obtain ⟨l', there, written⟩ := h.labels here
  refine ⟨l', l.source, ?_, congrArg some written.source, word⟩
  rw [slots, List.getElem?_map, there, Option.map_some]

theorem keepsLast (more : v'.Extends v) {factors : Nat}
    (uniform : ∀ gap ∈ gaps, ∃ id, gap.2 = .uniform id factors) (sides : texts.length = factors)
    {j : Nat} {side : List Char} {symbols : List Symbol}
    (text_here : texts[j]? = some side) (target_here : targets[j]? = some symbols) :
    List.Forall₂ (r.KeepsLast v' (j + 1) (words side)) (headless (words side)) symbols := by
  have read := h.slots text_here target_here
  rw [SlotsOf, List.forall₂_map_left_iff] at read
  refine (forall₂_mem read).imp ?_
  rintro text symbol ⟨listed, -, read⟩ name label form
  obtain ⟨slot, rfl, found⟩ := read name label (Token.ofText_eq_gap_iff.2 form)
  obtain ⟨below, -⟩ := List.findIdx?_eq_some_iff_getElem.1 found
  have here := List.getElem?_eq_getElem below
  obtain ⟨id, labels⟩ := uniform _ (List.getElem_mem below)
  obtain ⟨l', there, written⟩ := h.labels here
  rw [Gaps.fst_of_slot? found here, labels] at written
  have some_label := List.ne_nil_of_mem (mem_labelsFor.2 ⟨text, listed, form⟩)
  obtain ⟨last, last_eq⟩ := Option.isSome_iff_exists.1 (List.getLast?_isSome.2 some_label)
  have inside : 0 + j < (Labels.uniform id factors).targets.length := by
    rw [Labels.uniform, List.length_replicate, Nat.zero_add, ← sides]
    exact (List.getElem?_eq_some_iff.1 text_here).1
  obtain ⟨id', label_here, word⟩ := written.target text_here last_eq inside
  rw [Nat.zero_add] at label_here
  refine ⟨slot, last, rfl, last_eq, l', id', ?_, label_here, more.symbol word⟩
  rw [slots, List.getElem?_map, there, Option.map_some]

end TargetsLabelled

theorem readRule_keepsLastLabels (factors : Nat) {line source target features : List Char}
    {more : List (List Char)}
    (columns : ruleColumns line = source :: target :: features :: more)
    (distinct : (gapNames (words source)).Nodup) (v : Vocabulary) :
    Leaves v (readRule factors line) fun v' r =>
      r.KeepsLastLabels v' source (factorColumns target) := by
  rw [readRule, columns]
  dsimp only
  refine .bind (.lift _) fun v₁ side _ read => .check fun _ => ?_
  have tokens := SideText.tokens_of_read read
  refine .bind (.intern _) fun v₂ label _ _ => ?_
  refine .bind ((readSource_labels factors line [] side.tokens v₂).and_returns
    (readSource_names factors line [] side.tokens)) ?_
  rintro v₃ ⟨symbols, gaps⟩ _ ⟨⟨⟨opened, gaps_eq, uniform⟩, slots_of⟩, names⟩
  obtain rfl : gaps = opened := gaps_eq
  rw [tokens, List.forall₂_map_left_iff] at slots_of
  rw [tokens] at names
  have names_eq : gaps.map (·.1) = gapNames (words source) := names
  refine .check fun sides =>
    .bind (readTargets_labels line 0 _ (names_eq ▸ distinct) _ v₃) ?_
  rintro v₄ ⟨targets, head, gaps'⟩ more₄ labelled
  refine .bind ((readFeatures_named features v₄).adapt _) fun v₅ features' more₅ _ => ?_
  refine .pure ⟨?_, labelled.length, labelled.keepsLast rfl more₅ uniform (of_not_not sides)⟩
  refine slots_of.imp fun text symbol read name label form => ?_
  obtain ⟨slot, id, rfl, here, word⟩ := read name label (Token.ofText_eq_gap_iff.2 form)
  exact ⟨slot, rfl, labelled.hasLabel_source rfl here ((more₅.trans more₄).symbol word)⟩

/-- An accepted line has the labels of its source side, and of each target side the last one for
every gap. It has all that are written if and only if no target side writes two labels for one
gap. -/
theorem readRule_labels {factors : Nat} {line : List Char} {v v' : Vocabulary} {r : Rule}
    (read : (readRule factors line).run.run v = (.ok r, v')) :
    ∃ source target features more, ruleColumns line = source :: target :: features :: more ∧
      r.KeepsLastLabels v' source (factorColumns target) ∧
      (r.KeepsLabels v' source (factorColumns target) ↔
        ∀ side ∈ factorColumns target, SingleLabels (words side)) := by
  obtain ⟨source, target, features, more, columns, holds⟩ :=
    (readRule_accepts factors line v).1 ⟨r, congrArg Prod.fst read⟩
  have returned := @(readRule_keepsLastLabels factors columns
    (nodup_gapNames.2 holds.source_distinct) v).returns
  rw [read] at returned
  have last : r.KeepsLastLabels v' source (factorColumns target) := returned rfl
  exact ⟨source, target, features, more, columns, last, last.keepsLabels_iff⟩

/-- A target side that names a gap twice, each time with a label of its own. -/
def repeatedTarget : List Char := "x0:B x0:C".toList

def repeatedLine : List Char := "a x0:A ||| x0:B x0:C |||".toList

theorem ruleColumns_repeatedLine :
    ruleColumns repeatedLine = ["a x0:A".toList, repeatedTarget, []] := by decide +kernel

theorem exists_readRule_repeatedLine :
    ∃ r v', (readRule 1 repeatedLine).run.run .empty = (.ok r, v') := by
  have accepted : ((readRule 1 repeatedLine).run.run .empty).1.isOk = true := by decide +kernel
  cases run : (readRule 1 repeatedLine).run.run .empty with
  | mk result v' =>
      rw [run] at accepted
      cases result with
      | error e => cases accepted
      | ok r => exact ⟨r, v', rfl⟩

theorem readRule_labels_last : ∃ r v',
    (readRule 1 repeatedLine).run.run .empty = (.ok r, v') ∧
    r.KeepsLastLabels v' "a x0:A".toList (factorColumns repeatedTarget) := by
  obtain ⟨r, v', run⟩ := exists_readRule_repeatedLine
  obtain ⟨source, target, features, more, columns, last, -⟩ := readRule_labels run
  cases ruleColumns_repeatedLine.symm.trans columns
  exact ⟨r, v', run, last⟩

/-- The line is accepted, and the first label of its target side is lost. -/
theorem readRule_labels_overridden : ∃ r v',
    (readRule 1 repeatedLine).run.run .empty = (.ok r, v') ∧
    ruleColumns repeatedLine = ["a x0:A".toList, repeatedTarget, []] ∧
    ¬ r.KeepsLabels v' "a x0:A".toList (factorColumns repeatedTarget) := by
  obtain ⟨r, v', run⟩ := exists_readRule_repeatedLine
  refine ⟨r, v', run, ruleColumns_repeatedLine, fun kept => ?_⟩
  have returned := @(readRule_keepsLastLabels 1 ruleColumns_repeatedLine (by decide +kernel)
    .empty).returns
  rw [run] at returned
  have sides : factorColumns repeatedTarget = [repeatedTarget] := by decide +kernel
  have written : labelsFor (words repeatedTarget) ['0'] = [['B'], ['C']] := by decide +kernel
  have single := (returned rfl).keepsLabels_iff.1 kept repeatedTarget (by simp [sides]) ['0']
  rw [written] at single
  cases single ['B'] (by simp) ['C'] (by simp)

end PackedForest
