import PackedForest.Rule.Table

/-!
# The shape of the rules that are read

A reader opens a slot for each gap of the source side, in order, and a name may not come back.
So the source side of a rule holds every slot exactly once and in increasing order, and
the labels that target sides write into the slots do not change their number.

`Rule.WellFormed` states this for one rule; it holds of every rule that a line is read as
(`Rule.IsRead.wellFormed`), and a table has no other rules. Rules made by hand need not have it.
The slots that target sides refer to are among those of the source side (`Rule.IsRead.targets`).
-/

namespace PackedForest

/-- Every value that a reader returns has the property. A reader that fails returns none. -/
def Interning.Returns {ε α : Type} (x : Interning ε α) (P : α → Prop) : Prop :=
  ∀ v a v', x.run.run v = (.ok a, v') → P a

/-- A reader whose errors are put in other words. -/
theorem Interning.run_adapt {ε δ α : Type} (f : ε → δ) (x : Interning ε α) (v : Vocabulary) :
    (ExceptT.adapt f x).run.run v = ((x.run.run v).1.mapError f, (x.run.run v).2) := by
  change (Except.mapError f <$> x.run).run v = _
  rw [StateT.run_map]
  rfl

namespace Interning.Returns

variable {ε δ α β : Type} {P : α → Prop} {Q : β → Prop}

theorem pure {a : α} (h : P a) : Returns (Pure.pure a : Interning ε α) P := by
  intro v a' v' result
  cases result
  exact h

theorem throw (e : ε) : Returns (MonadExcept.throw e : Interning ε α) P := by
  intro v a v' result
  cases result

theorem bind {x : Interning ε α} {f : α → Interning ε β} (first : Returns x P)
    (rest : ∀ a, P a → Returns (f a) Q) : Returns (x >>= f) Q := by
  intro v b v' result
  rw [ExceptT.run_bind, StateT.run_bind] at result
  cases run : x.run.run v with
  | mk returned v₁ =>
      rw [run] at result
      cases returned with
      | ok a => exact rest a (first v a v₁ run) v₁ b v' result
      | error e => cases result

/-- A step of which nothing need be known. -/
theorem bind_any {x : Interning ε α} {f : α → Interning ε β}
    (rest : ∀ a, Returns (f a) Q) : Returns (x >>= f) Q :=
  bind (P := fun _ => True) (fun _ _ _ _ => trivial) fun a _ => rest a

/-- A check that ends the reading leaves its negation to what follows. -/
theorem check {c : Prop} [Decidable c] {e : ε} {f : PUnit → Interning ε α} {x : Interning ε α}
    (rest : ¬ c → Returns x P) :
    Returns (if c then MonadExcept.throw e >>= f else x) P := by
  split
  · exact bind (throw e (P := fun _ => False)) fun _ impossible => impossible.elim
  · next passed => exact rest passed

theorem adapt {x : Interning ε α} (h : Returns x P) (f : ε → δ) :
    Returns (ExceptT.adapt f x) P := by
  intro v a v' result
  rw [run_adapt] at result
  cases run : x.run.run v with
  | mk returned v₁ =>
      rw [run] at result
      cases returned with
      | ok a' =>
          cases result
          exact h v _ _ run
      | error e => cases result

theorem and {P' : α → Prop} {x : Interning ε α} (h : Returns x P) (h' : Returns x P') :
    Returns x fun a => P a ∧ P' a :=
  fun v a v' result => ⟨h v a v' result, h' v a v' result⟩

end Interning.Returns

/-- The number of a slot that is not too large is below zero. -/
theorem slotId_small {index : Nat} (below : index < 0x80000000) :
    slotId index = (-1 - index : Int) := by
  have small : ∀ m : Nat, 2 * index < m → Int.bmod index m = index := fun m half =>
    Int.bmod_eq_of_le (by omega) (by omega)
  unfold slotId
  rw [small _ (by omega)]

/-- The slot that a symbol stands for. -/
def Symbol.slot? : Symbol → Option Nat
  | .word _ => none
  | .slot index => some index

/-- The source side is not empty, and holds all slots in order. -/
structure Rule.WellFormed (r : Rule) : Prop where
  source_ne_nil : r.source ≠ []
  slots_eq : r.source.filterMap Symbol.slot? = List.range r.slots.length

open Interning (Returns)

/-- The source side opens one slot after the other. -/
theorem readSource_slots (factors : Nat) (line : List Char) (gaps : Gaps)
    (tokens : List Token) : Returns (readSource factors line gaps tokens) fun read =>
      read.1.length = tokens.length ∧ ∃ opened, read.2.length = gaps.length + opened ∧
        read.1.filterMap Symbol.slot? = List.range' gaps.length opened := by
  induction tokens generalizing gaps with
  | nil => exact .pure ⟨rfl, 0, rfl, rfl⟩
  | cons token tokens ih =>
      cases token with
      | word text =>
          rw [readSource]
          refine .bind_any fun id => .bind (ih gaps) ?_
          rintro ⟨symbols, all⟩ ⟨length, opened, size, slots⟩
          exact .pure ⟨congrArg (· + 1) length, opened, size, slots⟩
      | gap name label =>
          rw [readSource]
          refine .check fun _ => .bind_any fun id => .bind (ih _) ?_
          rintro ⟨symbols, all⟩ ⟨length, opened, size, slots⟩
          rw [List.length_append, List.length_singleton] at size slots
          refine .pure ⟨congrArg (· + 1) length, opened + 1, ?_, ?_⟩
          · rw [size, Nat.add_assoc, Nat.add_comm 1]
          · rw [List.range'_succ, ← slots]
            rfl

theorem readTarget_length (factor : Nat) (line : List Char) (gaps : Gaps)
    (tokens : List Token) : Returns (readTarget factor line gaps tokens) fun read =>
      read.2.length = gaps.length := by
  induction tokens generalizing gaps with
  | nil => exact .pure rfl
  | cons token tokens ih =>
      cases token with
      | word text =>
          rw [readTarget]
          exact .bind_any fun id => .bind (ih gaps) fun _ length => .pure length
      | gap name label =>
          rw [readTarget]
          split
          · exact .throw _
          · refine .bind_any fun id => .bind (ih _) fun _ length => .pure ?_
            rw [length, Gaps.setTarget, List.length_modify]

theorem readTargets_length (line : List Char) (factor : Nat) (head : Labels) (gaps : Gaps)
    (texts : List (List Char)) : Returns (readTargets line factor head gaps texts) fun read =>
      read.2.2.length = gaps.length := by
  induction texts generalizing factor head gaps with
  | nil => exact .pure rfl
  | cons text texts ih =>
      rw [readTargets]
      refine .bind_any fun side => ?_
      extract_lets rest
      have rest_length : ∀ head, Returns (rest head) fun read => read.2.2.length = gaps.length :=
        fun head => .bind (readTarget_length _ _ _ _) fun _ length =>
          .bind (ih _ _ _) fun _ length' => .pure (length'.trans length)
      split
      · exact .bind_any rest_length
      · exact .bind_any fun _ => .bind_any rest_length

theorem readRule_wellFormed (factors : Nat) (line : List Char) :
    Returns (readRule factors line) Rule.WellFormed := by
  rw [readRule]
  split
  · refine .bind_any fun side => .check fun tokens_ne => .bind_any fun label => ?_
    refine .bind (readSource_slots _ _ _ _) ?_
    rintro ⟨source, gaps⟩ ⟨length, opened, size, slots⟩
    refine .check fun _ => .bind (readTargets_length _ _ _ _ _) ?_
    rintro ⟨targets, head, gaps'⟩ length'
    refine .bind_any fun features => .pure ⟨?_, ?_⟩
    · rintro rfl
      exact tokens_ne (List.isEmpty_iff.2 (List.length_eq_zero_iff.1 length.symm))
    · rw [List.length_map, length', size, List.length_nil, Nat.zero_add, List.range_eq_range']
      exact slots
  · exact .throw _

/-- The slots among some symbols are less than a bound. -/
def SlotsBelow (bound : Nat) (side : List Symbol) : Prop :=
  ∀ slot, .slot slot ∈ side → slot < bound

theorem SlotsBelow.nil (bound : Nat) : SlotsBelow bound [] := fun _ member => by cases member

theorem SlotsBelow.word {bound id : Nat} {side : List Symbol} (h : SlotsBelow bound side) :
    SlotsBelow bound (.word id :: side) := fun slot member =>
  h slot ((List.mem_cons.1 member).resolve_left nofun)

theorem SlotsBelow.slot {bound slot : Nat} (below : slot < bound) {side : List Symbol}
    (h : SlotsBelow bound side) : SlotsBelow bound (.slot slot :: side) := fun slot' member => by
  rcases List.mem_cons.1 member with same | later
  · cases same
    exact below
  · exact h slot' later

/-- A target side refers to gaps of the source side. -/
theorem readTarget_slots (factor : Nat) (line : List Char) (gaps : Gaps) (tokens : List Token) :
    Returns (readTarget factor line gaps tokens) fun read => SlotsBelow gaps.length read.1 := by
  induction tokens generalizing gaps with
  | nil => exact .pure (.nil _)
  | cons token tokens ih =>
      cases token with
      | word text =>
          rw [readTarget]
          exact .bind_any fun id => .bind (ih gaps) fun _ below => .pure below.word
      | gap name label =>
          rw [readTarget]
          split
          · exact .throw _
          · next slot found =>
              obtain ⟨inside, -⟩ := List.findIdx?_eq_some_iff_getElem.1 found
              refine .bind_any fun id => .bind (ih _) fun _ below => .pure ?_
              rw [Gaps.setTarget, List.length_modify] at below
              exact below.slot inside

theorem readTargets_slots (line : List Char) (factor : Nat) (head : Labels) (gaps : Gaps)
    (texts : List (List Char)) : Returns (readTargets line factor head gaps texts) fun read =>
      ∀ side ∈ read.1, SlotsBelow gaps.length side := by
  induction texts generalizing factor head gaps with
  | nil => exact .pure (by simp)
  | cons text texts ih =>
      rw [readTargets]
      refine .bind_any fun side => ?_
      extract_lets rest
      have rest_below : ∀ head, Returns (rest head) fun read =>
          ∀ side ∈ read.1, SlotsBelow gaps.length side := by
        intro head
        refine .bind ((readTarget_slots _ _ _ _).and (readTarget_length _ _ _ _)) ?_
        rintro ⟨target, gaps'⟩ ⟨here, length⟩
        refine .bind (ih _ _ _) fun _ later => .pure (List.forall_mem_cons.2 ⟨here, ?_⟩)
        exact length ▸ later
      split
      · exact .bind_any rest_below
      · exact .bind_any fun _ => .bind_any rest_below

theorem readRule_targets (factors : Nat) (line : List Char) : Returns (readRule factors line)
    fun r => ∀ side ∈ r.targets, SlotsBelow r.slots.length side := by
  rw [readRule]
  split
  · refine .bind_any fun side => .check fun _ => .bind_any fun label => .bind_any ?_
    rintro ⟨source, gaps⟩
    refine .check fun _ =>
      .bind ((readTargets_slots _ _ _ _ _).and (readTargets_length _ _ _ _ _)) ?_
    rintro ⟨targets, head, gaps'⟩ ⟨below, length⟩
    refine .bind_any fun features => .pure ?_
    rw [List.length_map, length]
    exact below
  · exact .throw _

/-- The rule is one that some line holds. -/
def Rule.IsRead (r : Rule) : Prop :=
  ∃ factors line v v', (readRule factors line).run.run v = (.ok r, v')

theorem Rule.IsRead.wellFormed {r : Rule} (h : r.IsRead) : r.WellFormed := by
  obtain ⟨factors, line, v, v', read⟩ := h
  exact readRule_wellFormed factors line v r v' read

/-- The target sides of a rule refer to its slots. -/
theorem Rule.IsRead.targets {r : Rule} (h : r.IsRead) :
    ∀ side ∈ r.targets, SlotsBelow r.slots.length side := by
  obtain ⟨factors, line, v, v', read⟩ := h
  exact readRule_targets factors line v r v' read

theorem readLines_isRead (factors lineNumber : Nat) (lines : List (Option (List Char))) :
    Returns (readLines factors lineNumber lines) fun rules => ∀ r ∈ rules, r.IsRead := by
  induction lines generalizing lineNumber with
  | nil => exact .pure (by simp)
  | cons line lines ih =>
      cases line with
      | none => exact .throw _
      | some line =>
          have read : ∀ text, Returns (readRule factors text) Rule.IsRead :=
            fun text v r v' result => ⟨factors, text, v, v', result⟩
          rw [readLines]
          split
          · refine .bind ((read _).adapt _) fun rule first => ?_
            refine .bind (ih _) fun rules rest => .pure ?_
            rintro r (_ | ⟨_, later⟩)
            · exact first
            · exact rest r later
          · exact ih _

/-- Every rule of a table that is read is one that a line holds. -/
theorem readTable_isRead (factors : Nat) (lines : List (Option (List Char))) :
    Returns (readTable factors lines) fun rules => ∀ r ∈ rules, r.IsRead :=
  readLines_isRead factors 1 lines

end PackedForest
