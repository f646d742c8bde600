import PackedForest.Proofs.Rule.Acceptance
import PackedForest.Proofs.Rule.Writing

/-!
# Rules are read as they were written

The line of a rule is read again as the same rule, and nothing is numbered on the way, if no head
label of a target side holds the mark between target sides (`Rule.Writable.reads`). Only the source
text is another, and the values of features are those that their texts are read as.

The gaps of a line that was written are named by the numbers of their slots. After the source side
each slot has one label for every factor, and each target side puts in place the label of its own
factor: `Labels.upTo` is how far they have come.
-/

namespace PackedForest

open Text (words)

/-- From a vocabulary on, the reader returns the value, and numbers no other strings. -/
def Interning.Yields {ε α : Type} (v : Vocabulary) (x : Interning ε α) (a : α) : Prop :=
  x.run.run v = (.ok a, v)

namespace Interning.Yields

variable {ε δ α β : Type} {v : Vocabulary} {x : Interning ε α} {a : α} {b : β}

theorem pure (a : α) : Yields v (Pure.pure a : Interning ε α) a := rfl

theorem lift {x : Except ε α} (result : x = .ok a) : Yields v (liftM x : Interning ε α) a :=
  congrArg (·, v) result

theorem bind {f : α → Interning ε β} (first : Yields v x a) (rest : Yields v (f a) b) :
    Yields v (x >>= f) b := by
  rw [Yields, ExceptT.run_bind, StateT.run_bind, first]
  exact rest

/-- A string that has a number is given that. -/
theorem intern_bind {f : Nat → Interning ε β} {id : WordId} {s : String}
    (named : v.symbol id = .ok s) (rest : ∀ i : Nat, (i : WordId) = id → Yields v (f i) b) :
    Yields v (intern s >>= f) b := by
  obtain ⟨i, rfl, stands⟩ := Vocabulary.symbol_eq_ok_iff.1 named
  have known := Vocabulary.find?_eq_some_iff.2 stands
  have interned : v.intern s = (i, v) := by
    unfold Vocabulary.intern
    split
    · next j found =>
        cases found.symm.trans known
        rfl
    · next none_found => cases none_found.symm.trans known
  have first : Yields v (intern s : Interning ε Nat) i :=
    congrArg (fun p : Nat × Vocabulary => ((.ok p.1 : Except ε Nat), p.2)) interned
  exact first.bind (rest i rfl)

theorem check {c : Prop} [Decidable c] {e : ε} {f : PUnit → Interning ε α} (passed : ¬ c)
    (rest : Yields v x a) : Yields v (if c then MonadExcept.throw e >>= f else x) a := by
  rwa [if_neg passed]

theorem adapt (h : Yields v x a) (f : ε → δ) : Yields v (ExceptT.adapt f x) a := by
  rw [Yields, run_adapt, h]
  rfl

theorem mapM {f : α → Interning ε β} {as : List α} {bs : List β}
    (each : List.Forall₂ (fun a b => Yields v (f a) b) as bs) : Yields v (as.mapM f) bs := by
  induction each with
  | nil => exact pure []
  | cons first _ rest =>
      rw [List.mapM_cons]
      exact first.bind (rest.bind (pure _))

end Interning.Yields

open Interning (Yields)

/-! ### Slots by their numbers -/

theorem toDigits_injective {m n : Nat} (same : Nat.toDigits 10 m = Nat.toDigits 10 n) : m = n := by
  have value := congrArg (Nat.ofDigitChars 10 · 0) same
  rwa [Nat.ofDigitChars_ten_toDigits, Nat.ofDigitChars_ten_toDigits] at value

namespace Gaps

/-- Slots with these labels, named by their numbers. -/
def numbered (ls : List Labels) : Gaps := ls.mapIdx fun index l => (Nat.toDigits 10 index, l)

theorem numbered_concat (ls : List Labels) (l : Labels) :
    numbered (ls ++ [l]) = numbered ls ++ [(Nat.toDigits 10 ls.length, l)] := List.mapIdx_concat

theorem length_numbered (ls : List Labels) : (numbered ls).length = ls.length := List.length_mapIdx

theorem getElem?_numbered (ls : List Labels) (index : Nat) :
    (numbered ls)[index]? = ls[index]?.map fun l => (Nat.toDigits 10 index, l) :=
  List.getElem?_mapIdx

theorem map_snd_numbered (ls : List Labels) : (numbered ls).map (·.2) = ls := by
  refine List.ext_getElem? fun index => ?_
  rw [List.getElem?_map, getElem?_numbered, Option.map_map]
  exact Option.map_id'

theorem map_fst_numbered (ls : List Labels) (f : Labels → Labels) :
    (numbered (ls.map f)).map (·.1) = (numbered ls).map (·.1) := by
  refine List.ext_getElem? fun index => ?_
  simp [getElem?_numbered, Function.comp_def]

theorem slot?_numbered {ls : List Labels} {index : Nat} (inside : index < ls.length) :
    (numbered ls).slot? (Nat.toDigits 10 index) = some index := by
  refine List.findIdx?_eq_some_iff_getElem.2 ⟨(length_numbered ls).symm ▸ inside, ?_, ?_⟩
  · simp [numbered]
  · intro other before
    have apart : Nat.toDigits 10 other ≠ Nat.toDigits 10 index := fun same =>
      Nat.ne_of_lt before (toDigits_injective same)
    simpa [numbered] using apart

theorem not_isSome_slot?_numbered (ls : List Labels) :
    ¬ ((numbered ls).slot? (Nat.toDigits 10 ls.length)).isSome = true := by
  rw [isSome_slot?_iff, List.mem_map]
  rintro ⟨gap, listed, same⟩
  obtain ⟨index, here⟩ := List.mem_iff_getElem?.1 listed
  rw [getElem?_numbered] at here
  obtain ⟨l, slot, rfl⟩ := Option.map_eq_some_iff.1 here
  exact Nat.ne_of_lt (List.getElem?_eq_some_iff.1 slot).1 (toDigits_injective same)

/-- The gaps with the label for a factor set for each slot of a side. -/
def setTargets (gaps : Gaps) (factor : Nat) (label : Nat → WordId) : List Symbol → Gaps
  | [] => gaps
  | .word _ :: side => setTargets gaps factor label side
  | .slot index :: side => setTargets (gaps.setTarget index factor (label index)) factor label side

theorem getElem?_setTargets (gaps : Gaps) (factor : Nat) (label : Nat → WordId)
    (side : List Symbol) (index : Nat) : (gaps.setTargets factor label side)[index]? =
      if .slot index ∈ side then gaps[index]?.map (setLabel factor (label index))
      else gaps[index]? := by
  induction side generalizing gaps with
  | nil => rfl
  | cons symbol side ih =>
      cases symbol with
      | word id =>
          rw [setTargets, ih]
          simp
      | slot slot =>
          rw [setTargets, ih, getElem?_setTarget]
          by_cases same : slot = index
          · subst same
            rw [if_pos rfl, if_pos List.mem_cons_self, Option.map_map]
            split
            · exact congrArg (Option.map · _) (funext fun gap => setLabel_setLabel ..)
            · rfl
          · rw [if_neg same]
            have other : Symbol.slot index ≠ .slot slot := fun equal =>
              same (Symbol.slot.inj equal).symm
            simp [other]

end Gaps

/-! ### Labels one factor after the other -/

namespace Labels

/-- The tuple as far as the target sides before a factor have set it. The source label stands
everywhere else. -/
def upTo (l : Labels) (factor : Nat) : Labels where
  source := l.source
  targets := l.targets.mapIdx fun i id => if i < factor then id else l.source

theorem getElem?_upTo (l : Labels) (factor i : Nat) : (l.upTo factor).targets[i]? =
    l.targets[i]?.map fun id => if i < factor then id else l.source := List.getElem?_mapIdx

theorem ext_targets {l l' : Labels} (source : l.source = l'.source)
    (targets : ∀ i : Nat, l.targets[i]? = l'.targets[i]?) : l = l' := by
  cases l
  cases l'
  cases source
  exact congrArg _ (List.ext_getElem? targets)

theorem upTo_zero (l : Labels) : l.upTo 0 = .uniform l.source l.targets.length := by
  refine ext_targets rfl fun i => ?_
  rw [getElem?_upTo, uniform, List.getElem?_replicate]
  by_cases inside : i < l.targets.length
  · rw [if_pos inside, List.getElem?_eq_getElem inside, Option.map_some, if_neg (Nat.not_lt_zero i)]
  · rw [if_neg inside, List.getElem?_eq_none (Nat.not_lt.1 inside), Option.map_none]

theorem upTo_length (l : Labels) : l.upTo l.targets.length = l := by
  refine ext_targets rfl fun i => ?_
  rw [getElem?_upTo]
  cases here : l.targets[i]? with
  | none => rfl
  | some id => rw [Option.map_some, if_pos (List.getElem?_eq_some_iff.1 here).1]

theorem setTarget_upTo {l : Labels} {factor : Nat} {id : WordId}
    (here : l.targets[factor]? = some id) :
    (l.upTo factor).setTarget factor id = l.upTo (factor + 1) := by
  refine ext_targets rfl fun i => ?_
  have inside : factor < (l.upTo factor).targets.length := by
    rw [upTo, List.length_mapIdx]
    exact (List.getElem?_eq_some_iff.1 here).1
  rw [setTarget, List.getElem?_set, getElem?_upTo, getElem?_upTo]
  by_cases same : factor = i
  · subst same
    rw [if_pos rfl, if_pos inside, here, Option.map_some, if_pos (Nat.lt_succ_self _)]
  · rw [if_neg same]
    have before : i < factor ↔ i < factor + 1 := by omega
    simp only [before]

/-- Nothing changes where the label is the source label. -/
theorem upTo_succ {l : Labels} {factor : Nat} (here : l.targets[factor]? = some l.source) :
    l.upTo (factor + 1) = l.upTo factor := by
  refine ext_targets rfl fun i => ?_
  rw [getElem?_upTo, getElem?_upTo]
  by_cases same : factor = i
  · subst same
    rw [here, Option.map_some, Option.map_some, if_pos (Nat.lt_succ_self _),
      if_neg (Nat.lt_irrefl _)]
  · have before : i < factor + 1 ↔ i < factor := by omega
    simp only [before]

end Labels

/-! ### Features -/

section Pairs

variable {v : Vocabulary} {marks : List (List Char)}

theorem readFeature_yields {entry : WordId × Float} (spelled : v.SpellsLabel marks entry.1)
    {value : Float} (read : Decimal.read (Decimal.Format.plain.render entry.2) = .ok value) :
    Yields v (readFeature (Rule.writePair v entry)) (entry.1, value) := by
  obtain ⟨named, nonempty, -⟩ := spelled.spelling
  have no_sign : '=' ∉ Decimal.Format.plain.render entry.2 :=
    Decimal.not_mem_plain (by decide) (by decide) _
  have parts : splitPair? (Rule.writePair v entry) = _ :=
    splitPair?_eq_some_iff.2 (.inl ⟨rfl, no_sign⟩)
  rw [readFeature, parts]
  refine .check (by simpa using nonempty) ?_
  rw [read]
  refine .intern_bind named fun i same => ?_
  exact same ▸ .pure _

theorem readFeatures_yields {entries : List (WordId × Float)} {column : List Char}
    (spelled : ∀ entry ∈ entries, v.SpellsLabel marks entry.1) {value : Float → Float}
    (values : ∀ entry ∈ entries,
      Decimal.read (Decimal.Format.plain.render entry.2) = .ok (value entry.2))
    (written : words column = entries.map (Rule.writePair v)) :
    Yields v (readFeatures column)
      (.ofList (entries.map fun entry => (entry.1, value entry.2))) := by
  rw [readFeatures, written]
  refine (Yields.mapM ?_).bind (.pure _)
  rw [List.forall₂_map_left_iff, List.forall₂_map_right_iff, List.forall₂_same]
  exact fun entry listed => readFeature_yields (spelled entry listed) (values entry listed)

end Pairs

/-! ### Sides -/

/-- What the line of a rule is read as, by what the texts of its values stand for. -/
def Rule.reread (v : Vocabulary) (value : Float → Float) (r : Rule) : Rule := { r with
  features := .ofList (r.features.entries.map fun entry => (entry.1, value entry.2))
  sourceText := String.ofList (r.writeSide v 0 r.source) }

/-- The slots of a rule as far as the target sides before a factor have set them. -/
def Rule.gapsUpTo (r : Rule) (factor : Nat) : Gaps := .numbered (r.slots.map (·.upTo factor))

namespace Rule.Writable

variable {factors : Nat} {v : Vocabulary} {r : Rule} (h : r.Writable factors v)

include h

/-- The slots that part of the source side opens come after those opened before. -/
theorem readSource_yields (line : List Char) {side : List Symbol} {opened more : Nat}
    (shown : ∀ s ∈ side, r.Shows v [columnMark] 0 s)
    (slots : side.filterMap Symbol.slot? = List.range' opened more) :
    Yields v (readSource factors line (.numbered ((r.slots.take opened).map (·.upTo 0)))
      (side.map (r.token v 0)))
      (side, .numbered ((r.slots.take (opened + more)).map (·.upTo 0))) := by
  induction side generalizing opened more with
  | nil =>
      obtain rfl : more = 0 := by simpa using slots.symm
      exact .pure _
  | cons symbol side ih =>
      obtain ⟨here, later⟩ := List.forall_mem_cons.1 shown
      cases symbol with
      | word id =>
          rw [List.map_cons, token, readSource]
          refine .intern_bind (Vocabulary.SpellsWord.spelling here).1 fun i same => ?_
          obtain rfl := Int.ofNat.inj same
          exact (ih later slots).bind (.pure _)
      | slot index =>
          obtain ⟨l, id, slot, label, spelled⟩ := here
          obtain rfl : l.source = id := Option.some.inj label
          obtain ⟨more, rfl⟩ : ∃ m, more = m + 1 :=
            Nat.exists_eq_succ_of_ne_zero fun none => by
              subst none
              cases slots
          obtain ⟨rfl, slots⟩ := List.cons.inj slots
          have inside := (List.getElem?_eq_some_iff.1 slot).1
          have length : ((r.slots.take index).map (·.upTo 0)).length = index := by
            rw [List.length_map, List.length_take, Nat.min_eq_left (Nat.le_of_lt inside)]
          have next : (r.slots.take (index + 1)).map (·.upTo 0) =
              (r.slots.take index).map (·.upTo 0) ++ [.uniform l.source factors] := by
            rw [List.take_add_one, slot, Option.toList_some, List.map_append, List.map_singleton,
              l.upTo_zero, h.slots_length l (List.mem_of_getElem? slot)]
          have new := Gaps.not_isSome_slot?_numbered ((r.slots.take index).map (·.upTo 0))
          have rest := ih later slots
          rw [next, Gaps.numbered_concat] at rest
          rw [length] at new rest
          rw [List.map_cons, token, slotLabel_eq slot label, readSource]
          refine .check new (.intern_bind spelled.spelling.1 fun i same => ?_)
          rw [same, Gaps.length_numbered, length]
          rw [Nat.add_right_comm, Nat.add_assoc] at rest
          exact rest.bind (.pure _)

omit h in
/-- A target side sets the labels of the slots that it has. -/
theorem readTarget_yields (line : List Char) {factor : Nat} {marks : List (List Char)}
    {side : List Symbol} (shown : ∀ s ∈ side, r.Shows v marks (factor + 1) s) {gaps : Gaps}
    (names : gaps.map (·.1) = (Gaps.numbered r.slots).map (·.1)) :
    Yields v (readTarget factor line gaps (side.map (r.token v (factor + 1))))
      (side, gaps.setTargets factor (r.slotLabel (factor + 1)) side) := by
  induction side generalizing gaps with
  | nil => exact .pure _
  | cons symbol side ih =>
      obtain ⟨here, later⟩ := List.forall_mem_cons.1 shown
      cases symbol with
      | word id =>
          rw [List.map_cons, token, readTarget]
          refine .intern_bind (Vocabulary.SpellsWord.spelling here).1 fun i same => ?_
          obtain rfl := Int.ofNat.inj same
          exact (ih later names).bind (.pure _)
      | slot index =>
          obtain ⟨l, id, slot, label, spelled⟩ := here
          have found : gaps.slot? (Nat.toDigits 10 index) = some index := by
            rw [Gaps.slot?_congr names]
            exact Gaps.slot?_numbered (List.getElem?_eq_some_iff.1 slot).1
          have rest := ih later
            ((Gaps.map_fst_setTarget gaps index factor
              (r.slotLabel (factor + 1) index)).trans names)
          rw [slotLabel_eq slot label] at rest
          rw [List.map_cons, token, readTarget, found, slotLabel_eq slot label, Gaps.setTargets,
            slotLabel_eq slot label]
          refine .intern_bind spelled.spelling.1 fun i same => ?_
          rw [same]
          exact rest.bind (.pure _)

/-- After a target side all slots have come one factor further. A slot that the side does not have
keeps its source label there. -/
theorem setTargets_gapsUpTo {i : Nat} {side : List Symbol} (here : r.targets[i]? = some side) :
    (r.gapsUpTo i).setTargets i (r.slotLabel (i + 1)) side = r.gapsUpTo (i + 1) := by
  refine List.ext_getElem? fun index => ?_
  rw [Gaps.getElem?_setTargets, gapsUpTo, gapsUpTo, Gaps.getElem?_numbered,
    Gaps.getElem?_numbered, List.getElem?_map, List.getElem?_map]
  cases slot : r.slots[index]? with
  | none => simp
  | some l =>
      have below := (List.getElem?_eq_some_iff.1 slot).1
      obtain ⟨l', id, slot', label⟩ := h.exists_label below (h.target_inside here)
      cases slot.symm.trans slot'
      rw [slotLabel_eq slot label]
      have target : l.targets[i]? = some id := label
      split
      · exact congrArg (fun l => some (Nat.toDigits 10 index, l)) (Labels.setTarget_upTo target)
      · next absent =>
          obtain ⟨-, rfl⟩ := (h.slot_target slot here target).resolve_left fun both => absent both.1
          rw [Option.map_some, Option.map_some, Option.map_some, Labels.upTo_succ target]
          rfl

theorem readTargets_yields (line : List Char) (apart : r.HeadsApart v) {i : Nat}
    {sides : List (List Symbol)} {texts : List (List Char)} (here : r.targets.drop i = sides)
    (written : texts.map words = (r.writeTargets v i sides).map words) :
    Yields v (readTargets line i (r.head.upTo i) (r.gapsUpTo i) texts)
      (sides, r.head.upTo (i + sides.length), r.gapsUpTo (i + sides.length)) := by
  induction sides generalizing i texts with
  | nil =>
      obtain rfl : texts = [] := List.map_eq_nil_iff.1 written
      exact .pure _
  | cons side sides ih =>
      obtain ⟨text, texts, rfl⟩ : ∃ text rest, texts = text :: rest :=
        List.exists_cons_of_ne_nil fun none => by
          subst none
          cases written
      obtain ⟨first, later⟩ := List.cons.inj written
      have target : r.targets[i]? = some side := by
        rw [← List.head?_drop, here]
        rfl
      have rest : r.targets.drop (i + 1) = sides := by
        rw [← List.tail_drop, here]
        rfl
      have shown := h.target_shown target
      obtain ⟨id, label, spelled⟩ := h.target_head_apart (h.target_inside target) apart
      obtain ⟨named, nonempty, safe⟩ := spelled.spelling
      have text_words : words text = words (r.writeSide v (i + 1) side) := first
      rw [writeSide, headLabel_eq label] at text_words
      have read := SideText.read_of_words (writable_tokens shown) safe.solid nonempty text_words
      have side_read : Yields v _ (_, (r.gapsUpTo i).setTargets _ _ _) :=
        readTarget_yields line shown (Gaps.map_fst_numbered r.slots (·.upTo i))
      rw [h.setTargets_gapsUpTo target] at side_read
      have head : (r.head.upTo i).setTarget i id = r.head.upTo (i + 1) :=
        Labels.setTarget_upTo label
      have length : i + (side :: sides).length = i + 1 + sides.length := by
        rw [List.length_cons]
        omega
      rw [length, readTargets]
      refine (Yields.lift read).bind ?_
      refine .intern_bind named fun k same => ?_
      refine (Yields.pure _).bind ?_
      rw [same, head]
      exact side_read.bind ((ih rest later).bind (.pure _))

/-- The line of a rule is read as the same rule, up to its source text and to the values that the
texts of its values stand for. -/
theorem reads (some_target : r.targets ≠ []) (apart : r.HeadsApart v) {value : Float → Float}
    (values : ∀ entry ∈ r.features.entries,
      Decimal.read (Decimal.Format.plain.render entry.2) = .ok (value entry.2)) :
    Yields v (readRule factors (r.write v)) (r.reread v value) := by
  obtain ⟨named, nonempty, safe⟩ := h.head_source.spelling
  have source_read : SideText.read (r.writeSide v 0 r.source) =
      .ok ⟨r.source.map (r.token v 0), some (v.spelling r.head.source)⟩ :=
    SideText.read_of_words (writable_tokens h.source_shown) safe.solid nonempty rfl
  have source := h.readSource_yields (r.write v) h.source_shown
    (h.wellFormed.slots_eq.trans List.range_eq_range')
  have targets := h.readTargets_yields (r.write v) apart (List.drop_zero)
    (h.words_factorColumns some_target apart)
  have features := readFeatures_yields h.features values h.words_features
  have head : Labels.uniform r.head.source factors = r.head.upTo 0 := by
    rw [r.head.upTo_zero, h.head_length]
  have some_source : ¬ (r.source.map (r.token v 0)).isEmpty = true := by
    simpa using h.wellFormed.source_ne_nil
  rw [Nat.zero_add, List.take_length] at source
  rw [Nat.zero_add, h.targets_length] at targets
  rw [readRule, h.ruleColumns_write some_target]
  refine (Yields.lift source_read).bind (.check some_source (.intern_bind named fun i same => ?_))
  rw [same, head]
  refine source.bind (.check (not_not.2 ((h.length_factorColumns_iff some_target).2 apart)) ?_)
  refine targets.bind ((features.adapt _).bind ?_)
  have head_done : r.head.upTo factors = r.head := h.head_length ▸ r.head.upTo_length
  have slots_done : (r.gapsUpTo factors).map (·.2) = r.slots := by
    have each : ∀ l ∈ r.slots, l.upTo factors = l := fun l listed =>
      h.slots_length l listed ▸ l.upTo_length
    rw [gapsUpTo, Gaps.map_snd_numbered, List.map_congr_left each, List.map_id']
  rw [head_done, slots_done, h.source_tight.trim_eq]
  exact .pure _

end Rule.Writable

/-! ### Rules and their displays -/

section Display

variable {factors : Nat} {line : List Char} {v v' : Vocabulary} {r : Rule}
  (read : (readRule factors line).run.run v = (.ok r, v'))

include read

theorem Rule.Writable.of_read : r.Writable factors v' := by
  have returns := @(readRule_writable factors line v).returns
  rw [read] at returns
  exact returns rfl

theorem Rule.targets_ne_nil_of_read : r.targets ≠ [] := by
  have accepted : RuleLine factors line :=
    (readRule_accepts factors line v).1 ⟨r, congrArg Prod.fst read⟩
  have positive := accepted.factors_pos
  rw [← (Rule.Writable.of_read read).targets_length] at positive
  exact List.ne_nil_of_length_pos positive

/-- A rule that is displayed and read again is the same rule, if its source label does not hold the
mark between target sides and its values are read back. Nothing is numbered on the way, and the
display is the same. -/
theorem readRule_render
    (head : ¬ factorMark <:+: v'.spelling r.head.source)
    (values : ∀ entry ∈ r.features.entries,
      Decimal.read (Decimal.Format.plain.render entry.2) = .ok entry.2) :
    ∃ text sourceText, r.render v' = .ok text ∧
      (readRule factors text.toList).run.run v' = (.ok { r with sourceText }, v') ∧
      Rule.render v' { r with sourceText } = .ok text := by
  have writable := Rule.Writable.of_read read
  have apart : r.HeadsApart v' := by
    intro id listed
    rcases writable.head_targets id listed with rfl | spelled
    · exact head
    · exact spelled.spelling.2.2.free factorMark (by simp)
  have again : Yields v' _ (r.reread v' id) :=
    writable.reads (Rule.targets_ne_nil_of_read read) apart values
  have features : Features.ofList (r.features.entries.map fun entry => (entry.1, id entry.2)) =
      r.features := by
    have same : (r.features.entries.map fun entry => (entry.1, id entry.2)) =
        r.features.entries := List.map_id _
    rw [same, Features.ofList_entries]
  rw [Rule.reread, features] at again
  refine ⟨_, String.ofList (r.writeSide v' 0 r.source), writable.render, ?_, writable.render⟩
  rw [String.toList_ofList]
  exact again

end Display

/-- A word that is an at sign in quotes, a gap that is not named by its slot, and a head label that
is left out. -/
def sampleLine : List Char := "x7:N \"@\" @ A|COLD ||| x7:M ||| p=0.5".toList

/-- The gap is displayed under the number of its slot, and the head label is written out. -/
theorem readRule_render_sample : ∃ r v' sourceText,
    (readRule 1 sampleLine).run.run .empty = (.ok r, v') ∧
    r.render v' = .ok "x0:N \"@\" @ A|COLD ||| x0:M @ A|COLD ||| p=0.5" ∧
    (readRule 1 "x0:N \"@\" @ A|COLD ||| x0:M @ A|COLD ||| p=0.5".toList).run.run v' =
      (.ok { r with sourceText }, v') := by
  have head : ((readRule 1 sampleLine).run.run .empty).1.toOption.map (fun r =>
      ((readRule 1 sampleLine).run.run .empty).2.spelling r.head.source) =
      some "A|COLD".toList := by decide +kernel
  have values : ((readRule 1 sampleLine).run.run .empty).1.toOption.map
      (·.features.entries) = some [(4, 0.5)] := by decide +kernel
  have shown : ((readRule 1 sampleLine).run.run .empty).1.toOption.bind (fun r =>
      (r.render ((readRule 1 sampleLine).run.run .empty).2).toOption) =
        some "x0:N \"@\" @ A|COLD ||| x0:M @ A|COLD ||| p=0.5" := by decide +kernel
  have back : Decimal.read (Decimal.Format.plain.render 0.5) = .ok 0.5 := by decide +kernel
  have free : ¬ factorMark <:+: "A|COLD".toList := by decide
  cases run : (readRule 1 sampleLine).run.run .empty with
  | mk result v' =>
      rw [run] at head values shown
      cases result with
      | error e => cases values
      | ok r =>
          obtain ⟨text, sourceText, display, again, -⟩ := readRule_render run
            (by
              have spelled : v'.spelling r.head.source = _ := Option.some.inj head
              rwa [spelled])
            (fun entry listed => by
              have entries : r.features.entries = _ := Option.some.inj values
              rw [entries] at listed
              rw [List.mem_singleton.1 listed]
              exact back)
          have same : (r.render v').toOption = some _ := shown
          rw [display] at same
          cases same
          exact ⟨r, v', sourceText, rfl, display, again⟩

end PackedForest
