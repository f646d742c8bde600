import PackedForest.Proofs.Decimal.Plain
import PackedForest.Proofs.Rule.Spelling

/-!
# Rules as they are written

A rule that can be written down is displayed without a fault, and `Rule.write` is its line
(`Rule.Writable.render`). What the vocabulary spells is kept apart there by characters that no mark
has: quotes, colons, blanks and the at sign. So the source side holds no mark between columns, and
the columns of the line are those that were written (`Rule.Writable.ruleColumns_write`).

Target sides hold no mark between sides but in their head labels. A head label that a target side
took from the source side may hold one, and then the line has too many target sides
(`Rule.Writable.length_factorColumns_iff`).
-/

namespace PackedForest

open Text (Solid Safe Tight words)

/-! ### Marks -/

/-- A mark that has a bar, and none of the other characters that sides are written with. -/
structure Mark (mark : List Char) : Prop where
  bar : '|' ∈ mark
  blank : ' ' ∉ mark
  quote : '"' ∉ mark
  colon : ':' ∉ mark
  sign : '@' ∉ mark

theorem Mark.ne_nil {mark : List Char} (h : Mark mark) : mark ≠ [] := List.ne_nil_of_mem h.bar

theorem mark_columnMark : Mark columnMark := by constructor <;> decide

theorem mark_factorMark : Mark factorMark := by constructor <;> decide

section Free

variable {marks : List (List Char)} {mark : List Char} (isMark : Mark mark) (known : mark ∈ marks)

include isMark known

theorem Token.Writable.free_text {token : Token} (h : token.Writable marks) :
    ¬ mark <:+: token.text := by
  have nonempty := isMark.ne_nil
  cases token with
  | word text =>
      have free : ¬ mark <:+: text := h.free mark known
      rw [Token.text, List.cons_append, Text.mark_infix_cons_iff isMark.quote nonempty,
        Text.mark_infix_iff isMark.quote nonempty, List.infix_nil]
      exact not_or.2 ⟨free, nonempty⟩
  | gap name label =>
      obtain ⟨-, digits, -, safe⟩ := h
      have no_bar : '|' ∉ 'x' :: name := by
        rw [List.mem_cons, not_or]
        refine ⟨by decide, fun listed => ?_⟩
        have digit := digits '|' listed
        revert digit
        decide
      rw [Token.text, Text.mark_infix_iff isMark.colon nonempty]
      exact not_or.2 ⟨Text.not_infix_of_not_mem isMark.bar no_bar, safe.free mark known⟩

/-- A side holds no mark if its head does not. -/
theorem SideText.mark_infix_write_iff {tokens : List Token} {head : List Char}
    (writable : ∀ token ∈ tokens, token.Writable marks) :
    mark <:+: write tokens head ↔ mark <:+: head := by
  have nonempty := isMark.ne_nil
  induction tokens with
  | nil =>
      rw [write, List.flatMap_nil, List.nil_append, Text.mark_infix_cons_iff isMark.sign nonempty,
        Text.mark_infix_cons_iff isMark.blank nonempty]
  | cons token tokens ih =>
      obtain ⟨here, later⟩ := List.forall_mem_cons.1 writable
      have parts : write (token :: tokens) head = token.text ++ ' ' :: write tokens head := by
        simp [write]
      rw [parts, Text.mark_infix_iff isMark.blank nonempty]
      exact (or_iff_right (here.free_text isMark known)).trans (ih later)

end Free

theorem Text.Safe.subset {marks marks' : List (List Char)} {cs : List Char} (h : Safe marks cs)
    (fewer : marks' ⊆ marks) : Safe marks' cs where
  solid := h.solid
  free mark known := h.free mark (fewer known)

/-! ### The ends of a line -/

theorem Text.Solid.tight {cs : List Char} (solid : Solid cs) : Tight cs where
  first c here := solid c (List.mem_of_head? here)
  last c here := solid c (List.mem_of_getLast? here)

/-- A text is tight by what it begins and ends with. -/
theorem Text.Tight.between {before after : List Char} (h : Tight before) (h' : Tight after)
    (nonempty : before ≠ []) (nonempty' : after ≠ []) (middle : List Char) :
    Tight (before ++ middle ++ after) where
  first c here := by
    obtain ⟨d, before, rfl⟩ := List.exists_cons_of_ne_nil nonempty
    exact h.first c here
  last c here := by
    rw [List.getLast?_append_of_ne_nil _ nonempty'] at here
    exact h'.last c here

theorem SideText.tight_write {marks : List (List Char)} {tokens : List Token} {head : List Char}
    (writable : ∀ token ∈ tokens, token.Writable marks) (solid : Solid head)
    (head_ne_nil : head ≠ []) : Tight (write tokens head) := by
  have sign : Tight ['@'] := Solid.tight (by decide)
  cases tokens with
  | nil => exact sign.between solid.tight (List.cons_ne_nil _ _) head_ne_nil [' ']
  | cons token tokens =>
      have begins := (writable token List.mem_cons_self).solid_text.tight
      have whole := begins.between solid.tight token.text_ne_nil head_ne_nil
        (' ' :: tokens.flatMap (fun token => token.text ++ [' ']) ++ ['@', ' '])
      simpa [write] using whole

theorem SideText.write_ne_nil (tokens : List Token) (head : List Char) :
    write tokens head ≠ [] := List.append_ne_nil_of_right_ne_nil _ (List.cons_ne_nil _ _)

theorem Text.tight_joined {m : Char} {ms : List Char} {sides : List (List Char)}
    (nonempty : sides ≠ []) (each : ∀ side ∈ sides, side ≠ [] ∧ Tight side) :
    joined m ms sides ≠ [] ∧ Tight (joined m ms sides) := by
  induction sides with
  | nil => exact absurd rfl nonempty
  | cons side sides ih =>
      obtain ⟨⟨side_ne_nil, tight⟩, later⟩ := List.forall_mem_cons.1 each
      by_cases last : sides = []
      · subst last
        rw [joined, List.intercalate_singleton]
        exact ⟨side_ne_nil, tight⟩
      · obtain ⟨rest_ne_nil, rest⟩ := ih last later
        have whole := tight.between rest side_ne_nil rest_ne_nil (' ' :: (m :: ms ++ [' ']))
        rw [joined_cons side last]
        refine ⟨List.append_ne_nil_of_left_ne_nil side_ne_nil _, ?_⟩
        simpa using whole

/-! ### What is written -/

/-- The string that a number names. -/
def Vocabulary.spelling (v : Vocabulary) (id : WordId) : List Char :=
  match v.symbol id with
  | .ok s => s.toList
  | .error _ => []

section Spelling

variable {v : Vocabulary} {marks : List (List Char)} {id : WordId}

theorem Vocabulary.spelling_eq {s : List Char} (named : v.symbol id = .ok (String.ofList s)) :
    v.spelling id = s := by
  rw [spelling, named]
  exact String.toList_ofList

theorem Vocabulary.SpellsWord.spelling (h : v.SpellsWord marks id) :
    v.symbol id = .ok (String.ofList (v.spelling id)) ∧ Safe marks (v.spelling id) := by
  obtain ⟨s, named, safe⟩ := h
  rw [spelling_eq named]
  exact ⟨named, safe⟩

theorem Vocabulary.SpellsLabel.spelling (h : v.SpellsLabel marks id) :
    v.symbol id = .ok (String.ofList (v.spelling id)) ∧ v.spelling id ≠ [] ∧
      Safe marks (v.spelling id) := by
  obtain ⟨s, named, nonempty, safe⟩ := h
  rw [spelling_eq named]
  exact ⟨named, nonempty, safe⟩

end Spelling

namespace Rule

/-- The label that a slot is shown with in the side with the given factor. -/
def slotLabel (r : Rule) (factor index : Nat) : WordId :=
  (r.slots[index]?.bind fun l => l.toList[factor]?).getD 0

/-- The label of the head that is shown in the side with the given factor. -/
def headLabel (r : Rule) (factor : Nat) : WordId := r.head.toList[factor]?.getD 0

/-- The token that a symbol is shown as in the side with the given factor. -/
def token (v : Vocabulary) (r : Rule) (factor : Nat) : Symbol → Token
  | .word id => .word (v.spelling id)
  | .slot index => .gap (Nat.toDigits 10 index) (v.spelling (r.slotLabel factor index))

def writeSide (v : Vocabulary) (r : Rule) (factor : Nat) (side : List Symbol) : List Char :=
  SideText.write (side.map (r.token v factor)) (v.spelling (r.headLabel factor))

/-- The target sides from a factor on. -/
def writeTargets (v : Vocabulary) (r : Rule) (factor : Nat) (sides : List (List Symbol)) :
    List (List Char) :=
  (sides.zipIdx factor).map fun side => r.writeSide v (side.2 + 1) side.1

def writePair (v : Vocabulary) (entry : WordId × Float) : List Char :=
  v.spelling entry.1 ++ '=' :: Decimal.Format.plain.render entry.2

def writeFeatures (v : Vocabulary) (entries : List (WordId × Float)) : List Char :=
  entries.flatMap fun entry => ' ' :: writePair v entry

/-- The line of a rule. -/
def write (v : Vocabulary) (r : Rule) : List Char :=
  r.writeSide v 0 r.source ++ ' ' :: (columnMark ++
    (' ' :: Text.joined '|' ['C', 'O', 'L', '|'] (r.writeTargets v 0 r.targets) ++
      ' ' :: (columnMark ++ writeFeatures v r.features.entries)))

/-- The symbol is shown, in the side with the given factor, by a token that can be written in a
column with these marks. -/
def Shows (v : Vocabulary) (r : Rule) (marks : List (List Char)) (factor : Nat) : Symbol → Prop
  | .word id => v.SpellsWord marks id
  | .slot index => ∃ l id, r.slots[index]? = some l ∧ l.toList[factor]? = some id ∧
      v.SpellsLabel marks id

/-- The label of the head that is shown can be written there. -/
def ShowsHead (v : Vocabulary) (r : Rule) (marks : List (List Char)) (factor : Nat) : Prop :=
  ∃ id, r.head.toList[factor]? = some id ∧ v.SpellsLabel marks id

/-- No head label of a target side holds the mark between sides. -/
def HeadsApart (v : Vocabulary) (r : Rule) : Prop :=
  ∀ id ∈ r.head.targets, ¬ factorMark <:+: v.spelling id

instance (v : Vocabulary) (r : Rule) : Decidable (r.HeadsApart v) := List.decidableBAll _ _

/-- What holds of each target side holds of all that are written. -/
theorem forall_mem_writeTargets {v : Vocabulary} {r : Rule} {P : List Char → Prop}
    (each : ∀ {i side}, r.targets[i]? = some side → P (r.writeSide v (i + 1) side)) :
    ∀ text ∈ r.writeTargets v 0 r.targets, P text := by
  intro text listed
  obtain ⟨⟨side, i⟩, inside, rfl⟩ := List.mem_map.1 listed
  exact each (List.mem_zipIdx_iff_getElem?.1 inside)

section Sides

variable {v : Vocabulary} {r : Rule} {marks : List (List Char)} {factor : Nat}

theorem nth_eq_ok {α : Type} {as : List α} {index : Nat} {a : α} (here : as[index]? = some a) :
    nth as index = .ok a := by
  rw [nth, here]

theorem slotLabel_eq {index : Nat} {l : Labels} {id : WordId} (slot : r.slots[index]? = some l)
    (label : l.toList[factor]? = some id) : r.slotLabel factor index = id := by
  rw [slotLabel, slot, Option.bind_some, label, Option.getD_some]

theorem headLabel_eq {id : WordId} (label : r.head.toList[factor]? = some id) :
    r.headLabel factor = id := by
  rw [headLabel, label, Option.getD_some]

theorem Shows.writable {s : Symbol} (h : r.Shows v marks factor s) :
    (r.token v factor s).Writable marks := by
  cases s with
  | word id => exact (Vocabulary.SpellsWord.spelling h).2
  | slot index =>
      obtain ⟨l, id, slot, label, spelled⟩ := h
      obtain ⟨-, nonempty, safe⟩ := spelled.spelling
      rw [token, slotLabel_eq slot label]
      refine ⟨Nat.toDigits_ne_nil, fun c listed => Text.isDigit_of_ascii ?_, nonempty, safe⟩
      exact Nat.isDigit_of_mem_toDigits (by decide) (by decide) listed

theorem Shows.render {s : Symbol} (h : r.Shows v marks factor s) :
    r.renderSymbol v factor s = .ok (String.ofList (r.token v factor s).text) := by
  cases s with
  | word id =>
      rw [renderSymbol, (Vocabulary.SpellsWord.spelling h).1, token, Token.text]
      refine congrArg Except.ok (String.toList_injective ?_)
      simp [ToString.toString]
  | slot index =>
      obtain ⟨l, id, slot, label, spelled⟩ := h
      rw [renderSymbol, token, slotLabel_eq slot label, Token.text]
      refine bind_ok (nth_eq_ok slot) (bind_ok (nth_eq_ok label) (bind_ok spelled.spelling.1 ?_))
      refine congrArg Except.ok (String.toList_injective ?_)
      simp [Nat.repr, ToString.toString]

variable {side : List Symbol} (shown : ∀ s ∈ side, r.Shows v marks factor s)

include shown

theorem writable_tokens : ∀ token ∈ side.map (r.token v factor), token.Writable marks := by
  intro token listed
  obtain ⟨s, inside, rfl⟩ := List.mem_map.1 listed
  exact (shown s inside).writable

theorem renderSide_eq {marks' : List (List Char)} (head : r.ShowsHead v marks' factor) :
    r.renderSide v factor side = .ok (String.ofList (r.writeSide v factor side)) := by
  obtain ⟨id, label, spelled⟩ := head
  have symbols := mapM_ok fun s listed => (shown s listed).render
  rw [renderSide, writeSide, headLabel_eq label]
  refine bind_ok symbols (bind_ok (nth_eq_ok label) (bind_ok spelled.spelling.1 ?_))
  refine congrArg Except.ok (String.toList_injective ?_)
  rw [String.toList_append, String.toList_append, String.toList_join, String.toList_ofList,
    String.toList_ofList, List.map_map, List.flatMap_map, SideText.write, List.flatMap_map]
  simp

end Sides

end Rule

namespace Rule.Writable

variable {factors : Nat} {v : Vocabulary} {r : Rule} (h : r.Writable factors v)

include h

/-- A slot has a label for each side. -/
theorem exists_label {index factor : Nat} (below : index < r.slots.length)
    (side : factor ≤ factors) :
    ∃ l id, r.slots[index]? = some l ∧ l.toList[factor]? = some id := by
  have slot := List.getElem?_eq_getElem below
  have length := h.slots_length _ (List.getElem_mem below)
  have inside : factor < (r.slots[index]).toList.length := by
    rw [Labels.toList, List.length_cons, length]
    omega
  exact ⟨_, _, slot, List.getElem?_eq_getElem inside⟩

theorem source_below : SlotsBelow r.slots.length r.source := by
  intro slot listed
  rw [← List.mem_range, ← h.wellFormed.slots_eq]
  exact List.mem_filterMap.2 ⟨_, listed, rfl⟩

theorem source_shown : ∀ s ∈ r.source, r.Shows v [columnMark] 0 s := by
  intro s listed
  cases s with
  | word id => exact h.source id listed
  | slot index =>
      obtain ⟨l, id, slot, label⟩ := h.exists_label (h.source_below index listed) (Nat.zero_le _)
      obtain rfl : l.source = id := Option.some.inj label
      exact ⟨l, _, slot, label, h.slot_source l (List.mem_of_getElem? slot)⟩

theorem target_shown {i : Nat} {side : List Symbol} (here : r.targets[i]? = some side) :
    ∀ s ∈ side, r.Shows v [columnMark, factorMark] (i + 1) s := by
  intro s listed
  have inside : i + 1 ≤ factors := h.targets_length ▸ (List.getElem?_eq_some_iff.1 here).1
  have target := List.mem_of_getElem? here
  cases s with
  | word id => exact h.targets side target id listed
  | slot index =>
      obtain ⟨l, id, slot, label⟩ := h.exists_label (h.below side target index listed) inside
      rcases h.slot_target slot here label with ⟨-, spelled⟩ | ⟨absent, -⟩
      · exact ⟨l, id, slot, label, spelled⟩
      · exact absurd listed absent

theorem source_head : r.ShowsHead v [columnMark] 0 := ⟨_, rfl, h.head_source⟩

theorem target_head {factor : Nat} (inside : factor ≤ factors) :
    r.ShowsHead v [columnMark] factor := by
  cases factor with
  | zero => exact h.source_head
  | succ i =>
      have target : i < r.head.targets.length := h.head_length ▸ inside
      refine ⟨_, List.getElem?_eq_getElem target, ?_⟩
      rcases h.head_targets _ (List.getElem_mem target) with same | spelled
      · exact same ▸ h.head_source
      · obtain ⟨s, named, nonempty, safe⟩ := spelled
        exact ⟨s, named, nonempty, safe.subset (by simp)⟩

/-- The label that a target side took from the source side may hold the mark between sides. -/
theorem target_head_apart {i : Nat} (inside : i < factors) (apart : r.HeadsApart v) :
    r.ShowsHead v [columnMark, factorMark] (i + 1) := by
  obtain ⟨id, label, s, named, nonempty, safe⟩ := h.target_head inside
  refine ⟨id, label, s, named, nonempty, safe.solid, fun mark known => ?_⟩
  rcases List.mem_pair.1 known with rfl | rfl
  · exact safe.free _ (by simp)
  · exact Vocabulary.spelling_eq named ▸ apart id (List.mem_of_getElem? label)

/-- What can be written down is displayed as that line. -/
theorem render : r.render v = .ok (String.ofList (r.write v)) := by
  have source := renderSide_eq h.source_shown h.source_head
  have targets : r.targets.zipIdx.mapM (fun side => r.renderSide v (side.2 + 1) side.1) =
      .ok (r.targets.zipIdx.map fun side => String.ofList (r.writeSide v (side.2 + 1) side.1)) := by
    refine mapM_ok fun side listed => ?_
    have here := List.mem_zipIdx_iff_getElem?.1 listed
    have inside : side.2 + 1 ≤ factors := h.targets_length ▸ (List.getElem?_eq_some_iff.1 here).1
    exact renderSide_eq (h.target_shown here) (h.target_head inside)
  have features : (r.features.entries.mapM fun entry => do
      let name ← v.symbol entry.1
      return s!" {name}={Decimal.plainText entry.2}" : Except Fault (List String)) =
      .ok (r.features.entries.map fun entry => String.ofList (' ' :: writePair v entry)) := by
    refine mapM_ok fun entry listed => bind_ok (h.features entry listed).spelling.1 ?_
    refine congrArg Except.ok (String.toList_injective ?_)
    simp [writePair, Decimal.plainText, ToString.toString]
  rw [Rule.render]
  refine bind_ok source (bind_ok targets (bind_ok features ?_))
  refine congrArg Except.ok (String.toList_injective ?_)
  simp [write, writeTargets, writeFeatures, Text.joined, columnMark, String.toList_append,
    String.toList_join, String.toList_intercalate, List.flatMap_map, Function.comp_def]

/-! ### The columns of the line -/

theorem source_free : ¬ columnMark <:+: r.writeSide v 0 r.source := by
  obtain ⟨id, label, spelled⟩ := h.source_head
  have known : columnMark ∈ [columnMark] := List.mem_singleton_self _
  rw [writeSide, SideText.mark_infix_write_iff mark_columnMark known
    (writable_tokens h.source_shown), headLabel_eq label]
  exact spelled.spelling.2.2.free _ known

theorem source_tight : Tight (r.writeSide v 0 r.source) := by
  obtain ⟨id, label, spelled⟩ := h.source_head
  obtain ⟨-, nonempty, safe⟩ := spelled.spelling
  rw [writeSide, headLabel_eq label]
  exact SideText.tight_write (writable_tokens h.source_shown) safe.solid nonempty

theorem mark_infix_target_iff {mark : List Char} (isMark : Mark mark)
    (known : mark ∈ [columnMark, factorMark]) {i : Nat} {side : List Symbol}
    (here : r.targets[i]? = some side) :
    mark <:+: r.writeSide v (i + 1) side ↔ mark <:+: v.spelling (r.headLabel (i + 1)) :=
  SideText.mark_infix_write_iff isMark known (writable_tokens (h.target_shown here))

theorem target_inside {i : Nat} {side : List Symbol} (here : r.targets[i]? = some side) :
    i < factors := h.targets_length ▸ (List.getElem?_eq_some_iff.1 here).1

theorem targets_free : ∀ text ∈ r.writeTargets v 0 r.targets, ¬ columnMark <:+: text := by
  refine forall_mem_writeTargets fun {i side} here => ?_
  obtain ⟨id, label, spelled⟩ := h.target_head (h.target_inside here)
  rw [h.mark_infix_target_iff mark_columnMark (by simp) here, headLabel_eq label]
  exact spelled.spelling.2.2.free _ (List.mem_singleton_self _)

theorem targets_tight : ∀ text ∈ r.writeTargets v 0 r.targets, text ≠ [] ∧ Tight text := by
  refine forall_mem_writeTargets fun {i side} here => ⟨SideText.write_ne_nil _ _, ?_⟩
  obtain ⟨id, label, spelled⟩ := h.target_head (h.target_inside here)
  obtain ⟨-, nonempty, safe⟩ := spelled.spelling
  rw [writeSide, headLabel_eq label]
  exact SideText.tight_write (writable_tokens (h.target_shown here)) safe.solid nonempty

theorem targets_apart_iff :
    (∀ text ∈ r.writeTargets v 0 r.targets, ¬ factorMark <:+: text) ↔ r.HeadsApart v := by
  constructor
  · intro free id listed holds
    obtain ⟨i, label⟩ := List.mem_iff_getElem?.1 listed
    have inside := (List.getElem?_eq_some_iff.1 label).1
    rw [h.head_length, ← h.targets_length] at inside
    have here := List.getElem?_eq_getElem inside
    have written : r.writeSide v (i + 1) r.targets[i] ∈ r.writeTargets v 0 r.targets :=
      List.mem_map.2 ⟨(_, i), List.mem_zipIdx_iff_getElem?.2 here, rfl⟩
    refine free _ written ?_
    rwa [h.mark_infix_target_iff mark_factorMark (by simp) here, headLabel_eq label]
  · intro apart
    refine forall_mem_writeTargets fun {i side} here => ?_
    obtain ⟨id, label, spelled⟩ := h.target_head_apart (h.target_inside here) apart
    rw [h.mark_infix_target_iff mark_factorMark (by simp) here, headLabel_eq label]
    exact spelled.spelling.2.2.free _ (by simp)

end Rule.Writable

/-! ### The features of the line -/

section Pairs

variable {v : Vocabulary} {entries : List (WordId × Float)}
  (spelled : ∀ entry ∈ entries, v.SpellsLabel [columnMark] entry.1)

theorem Rule.writePair_ne_nil (v : Vocabulary) (entry : WordId × Float) :
    writePair v entry ≠ [] := List.append_ne_nil_of_right_ne_nil _ (List.cons_ne_nil _ _)

theorem Rule.safe_writePair {entry : WordId × Float}
    (spelled : v.SpellsLabel [columnMark] entry.1) : Safe [columnMark] (writePair v entry) := by
  obtain ⟨-, -, safe⟩ := spelled.spelling
  refine ⟨safe.solid.append (.cons (by decide) (Decimal.solid_plain _)), fun mark known => ?_⟩
  obtain rfl := List.mem_singleton.1 known
  have no_bar : '|' ∉ Decimal.Format.plain.render entry.2 :=
    Decimal.not_mem_plain (by decide) (by decide) _
  rw [writePair, Text.mark_infix_iff (by decide) mark_columnMark.ne_nil]
  exact not_or.2 ⟨safe.free _ known, Text.not_infix_of_not_mem mark_columnMark.bar no_bar⟩

include spelled

theorem Rule.words_append_writeFeatures {text : List Char} (solid : Solid text)
    (nonempty : text ≠ []) :
    words (text ++ writeFeatures v entries) = text :: entries.map (writePair v) := by
  induction entries generalizing text with
  | nil => exact (congrArg words (List.append_nil text)).trans (Text.words_of_solid solid nonempty)
  | cons entry entries ih =>
      obtain ⟨here, later⟩ := List.forall_mem_cons.1 spelled
      rw [writeFeatures, List.flatMap_cons, List.cons_append, Text.words_append_blank rfl,
        Text.words_of_solid solid nonempty]
      exact congrArg (text :: ·) (ih later (safe_writePair here).solid (writePair_ne_nil v entry))

theorem Rule.free_append_writeFeatures {text : List Char} (free : ¬ columnMark <:+: text) :
    ¬ columnMark <:+: text ++ writeFeatures v entries := by
  induction entries generalizing text with
  | nil => exact (List.append_nil text).symm ▸ free
  | cons entry entries ih =>
      obtain ⟨here, later⟩ := List.forall_mem_cons.1 spelled
      rw [writeFeatures, List.flatMap_cons, List.cons_append,
        Text.mark_infix_iff mark_columnMark.blank mark_columnMark.ne_nil]
      exact not_or.2 ⟨free, ih later ((safe_writePair here).free _ (List.mem_singleton_self _))⟩

theorem Rule.tight_append_writeFeatures {text : List Char} (tight : Tight text)
    (nonempty : text ≠ []) : Tight (text ++ writeFeatures v entries) := by
  induction entries generalizing text with
  | nil => exact (List.append_nil text).symm ▸ tight
  | cons entry entries ih =>
      obtain ⟨here, later⟩ := List.forall_mem_cons.1 spelled
      have pair_ne_nil := writePair_ne_nil v entry
      have rest := ih later (safe_writePair here).solid.tight pair_ne_nil
      have whole := tight.between rest nonempty
        (List.append_ne_nil_of_left_ne_nil pair_ne_nil _) [' ']
      rw [List.append_assoc] at whole
      exact whole

end Pairs

namespace Rule.Writable

variable {factors : Nat} {v : Vocabulary} {r : Rule} (h : r.Writable factors v)
  (some_target : r.targets ≠ [])

include h

theorem words_features : words (Text.trimStart (writeFeatures v r.features.entries)) =
    r.features.entries.map (writePair v) := by
  have spelled := h.features
  rw [Text.words_trimStart]
  generalize r.features.entries = entries at spelled
  cases entries with
  | nil => rfl
  | cons entry entries =>
      obtain ⟨here, later⟩ := List.forall_mem_cons.1 spelled
      rw [writeFeatures, List.flatMap_cons, List.cons_append, Text.words_cons_blank rfl]
      exact words_append_writeFeatures later (safe_writePair here).solid (writePair_ne_nil v entry)

include some_target

/-- The columns of the line are the source side, the target sides and the features. -/
theorem ruleColumns_write : ruleColumns (r.write v) =
    [r.writeSide v 0 r.source,
      Text.joined '|' ['C', 'O', 'L', '|'] (r.writeTargets v 0 r.targets),
      Text.trimStart (writeFeatures v r.features.entries)] := by
  have texts_ne_nil : r.writeTargets v 0 r.targets ≠ [] := by
    simpa [writeTargets] using some_target
  have apart : ' ' ∉ columnMark := mark_columnMark.blank
  have free_targets :
      ¬ columnMark <:+: Text.joined '|' ['C', 'O', 'L', '|'] (r.writeTargets v 0 r.targets) :=
    Text.not_infix_joined apart mark_columnMark.ne_nil (by decide) texts_ne_nil h.targets_free
  have free_features : ¬ columnMark <:+: [] ++ writeFeatures v r.features.entries :=
    free_append_writeFeatures h.features (by decide)
  have tight : Tight (Text.joined '|' ['C', 'O', 'L', '|'] (r.writeTargets v 0 r.targets)) :=
    (Text.tight_joined texts_ne_nil h.targets_tight).2
  rw [write]
  generalize Text.joined '|' ['C', 'O', 'L', '|'] (r.writeTargets v 0 r.targets) = targets at *
  have free_middle : ¬ columnMark <:+: ' ' :: targets := by
    rwa [Text.mark_infix_cons_iff apart mark_columnMark.ne_nil]
  have split : Text.cut '|' ['|', '|'] (r.writeSide v 0 r.source ++ ' ' :: (columnMark ++
      (' ' :: targets ++ ' ' :: (columnMark ++ writeFeatures v r.features.entries)))) =
      [r.writeSide v 0 r.source ++ [' '], ' ' :: targets ++ [' '],
        writeFeatures v r.features.entries] := by
    refine (Text.cut_append_mark apart h.source_free _).trans (congrArg (_ :: ·) ?_)
    refine (Text.cut_append_mark apart free_middle _).trans (congrArg (_ :: ·) ?_)
    exact Text.cut_of_free free_features
  have blank : ∀ c ∈ [' '], Text.isBlank c = true := List.forall_mem_singleton.2 rfl
  have source_trimmed :
      Text.trimEnd (r.writeSide v 0 r.source ++ [' ']) = r.writeSide v 0 r.source :=
    h.source_tight.trimEnd_padded blank
  have targets_trimmed : Text.trim (' ' :: targets ++ [' ']) = targets :=
    (tight.trim_padded blank blank : Text.trim ([' '] ++ targets ++ [' ']) = targets)
  rw [ruleColumns, Text.columns, split, Text.trimInner, Text.trimRest, Text.trimRest,
    source_trimmed, targets_trimmed]
  all_goals simp

omit some_target in
theorem length_writeTargets : (r.writeTargets v 0 r.targets).length = factors := by
  rw [writeTargets, List.length_map, List.length_zipIdx, h.targets_length]

/-- There are as many target sides as there should be unless a head label holds their mark. -/
theorem length_factorColumns_iff :
    (factorColumns (Text.joined '|' ['C', 'O', 'L', '|'] (r.writeTargets v 0 r.targets))).length =
      factors ↔ r.HeadsApart v := by
  have texts_ne_nil : r.writeTargets v 0 r.targets ≠ [] := by
    simpa [writeTargets] using some_target
  have many := Text.length_columns_joined_iff mark_factorMark.blank texts_ne_nil
  rw [h.length_writeTargets] at many
  exact many.trans h.targets_apart_iff

theorem words_factorColumns (apart : r.HeadsApart v) :
    (factorColumns
      (Text.joined '|' ['C', 'O', 'L', '|'] (r.writeTargets v 0 r.targets))).map words =
        (r.writeTargets v 0 r.targets).map words := by
  have texts_ne_nil : r.writeTargets v 0 r.targets ≠ [] := by
    simpa [writeTargets] using some_target
  exact Text.map_words_columns_joined mark_factorMark.blank texts_ne_nil
    (h.targets_apart_iff.2 apart)

end Rule.Writable

end PackedForest
