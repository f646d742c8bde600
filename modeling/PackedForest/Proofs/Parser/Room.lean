import PackedForest.Parser.Forest

/-!
# Settings that leave room

A parser may be set to any number of target factors, but a list can only take so many bytes. Where
the tuples of the labels of the settings and the rule for an unknown word can be made, the forest of
every sentence is built (`Parser.HasRoom.build_eq`). Where the tuples are too long, no forest is
built but that of no words (`Parser.build_overflow`). Building never fails in another way, and what
it returns is the forest (`Parser.build_gives`).
-/

namespace PackedForest

/-- The operation gives the value, unless there is the given reason for a list to be too long. -/
def GivesUnless {α : Type} (reason : Prop) (x : Except Fault α) (a : α) : Prop :=
  x = .ok a ∨ reason ∧ x = .error .capacityOverflow

namespace GivesUnless

variable {α β : Type} {reason reason' : Prop} {x : Except Fault α} {a : α}

theorem pure (a : α) : GivesUnless reason (Pure.pure a : Except Fault α) a := .inl rfl

theorem mono (h : GivesUnless reason x a) (weaker : reason → reason') : GivesUnless reason' x a :=
  h.imp_right fun stopped => ⟨weaker stopped.1, stopped.2⟩

theorem bind (h : GivesUnless reason x a) {f : α → Except Fault β} {b : β}
    (rest : GivesUnless reason (f a) b) : GivesUnless reason (x >>= f) b := by
  rcases h with rfl | ⟨because, rfl⟩
  · exact rest
  · exact .inr ⟨because, rfl⟩

theorem discard (h : GivesUnless reason x a) : GivesUnless reason (Functor.discard x) () := by
  rcases h with rfl | ⟨because, rfl⟩
  · exact .inl rfl
  · exact .inr ⟨because, rfl⟩

theorem foldlM {f : β → α → Except Fault β} {g : β → α → β}
    (step : ∀ b a, GivesUnless reason (f b a) (g b a)) (as : List α) (b : β) :
    GivesUnless reason (as.foldlM f b) (as.foldl g b) := by
  induction as generalizing b with
  | nil => exact .pure b
  | cons a as ih =>
      rw [List.foldlM_cons, List.foldl_cons]
      exact (step b a).bind (ih (g b a))

theorem eq_ok (h : GivesUnless reason x a) (none : ¬ reason) : x = .ok a :=
  h.resolve_right fun stopped => none stopped.1

end GivesUnless

theorem reserve_gives (size count : Nat) :
    GivesUnless (capacity < size * count) (reserve size count) () := by
  unfold reserve
  by_cases fits : size * count ≤ capacity
  · exact .inl (if_pos fits)
  · exact .inr ⟨Nat.lt_of_not_le fits, if_neg fits⟩

theorem Labels.tryUniform_gives (label : WordId) (factors : Nat) :
    GivesUnless (capacity < 4 * (factors + 1)) (tryUniform label factors)
      (uniform label factors) :=
  (reserve_gives 4 (factors + 1)).bind (.pure _)

theorem Rule.tryPassThrough_gives (word : WordId) (head : Labels) :
    GivesUnless (capacity < 24 * head.targets.length) (tryPassThrough word head)
      (passThrough word head) :=
  (reserve_gives 24 head.targets.length).bind (.pure _)

namespace Parser

variable {p : Parser}

/-- The tuples of the labels of the settings can be made, and so can the rule for an unknown word
if such words are kept. -/
structure HasRoom (p : Parser) : Prop where
  labels : 4 * (p.factors + 1) ≤ capacity
  targets : p.deleteUnknown = false → 24 * p.factors ≤ capacity

theorem tryRoot_gives (p : Parser) (f : Forest) :
    GivesUnless (capacity < 4 * (p.factors + 1)) (p.tryRoot f) (p.root? f) :=
  (Labels.tryUniform_gives p.rootLabel p.factors).bind (.pure _)

theorem tryUnknownRule_gives (keeps : p.deleteUnknown = false) (word : WordId) :
    GivesUnless (¬ p.HasRoom) (p.tryUnknownRule word) (p.unknownRule word) := by
  have labels : GivesUnless (¬ p.HasRoom) p.tryUnknownLabels p.unknownLabels :=
    (Labels.tryUniform_gives p.unknownLabel p.factors).mono
      fun long room => Nat.not_le_of_lt long room.labels
  refine labels.bind ((Rule.tryPassThrough_gives word p.unknownLabels).mono fun long room => ?_)
  rw [unknownLabels, Labels.uniform, List.length_replicate] at long
  exact Nat.not_le_of_lt long (room.targets keeps)

theorem checkUnknown_gives (p : Parser) (chart : Chart) (start : Nat) (words : List WordId) :
    GivesUnless (¬ p.HasRoom) (p.checkUnknown chart start words) () := by
  unfold checkUnknown
  split
  · next word =>
      cases keeps : p.deleteUnknown with
      | true => exact .pure ()
      | false =>
          rw [Bool.false_or]
          split
          · exact .pure ()
          · exact (tryUnknownRule_gives keeps word).discard
  · exact .pure ()

theorem buildSpan_gives (p : Parser) (sentence : List WordId) (f : Forest) (span : Span) :
    GivesUnless (¬ p.HasRoom) (p.buildSpan sentence f span) (p.fillSpan sentence f span) :=
  (p.checkUnknown_gives f.chart span.start _).bind (.pure _)

theorem foldlM_buildSpan_gives (p : Parser) (sentence : List WordId) :
    GivesUnless (¬ p.HasRoom) ((Span.upTo sentence.length).foldlM (p.buildSpan sentence)
      ⟨{ Graph.empty with words := sentence }, .empty⟩) (p.parse sentence) :=
  .foldlM (p.buildSpan_gives sentence) _ _

/-- A forest that is built is the forest of the sentence. The only reason why none is built is that
the settings leave no room. -/
theorem build_gives (p : Parser) (sentence : List WordId) :
    GivesUnless (¬ p.HasRoom) (p.build sentence) (p.parse sentence) := by
  have closing : GivesUnless (¬ p.HasRoom) (p.tryRoot (p.parse sentence))
      (p.root? (p.parse sentence)) :=
    (p.tryRoot_gives _).mono fun long room => Nat.not_le_of_lt long room.labels
  refine (p.foldlM_buildSpan_gives sentence).bind ?_
  cases sentence with
  | nil => exact .pure _
  | cons word words => exact closing.discard.bind (.pure _)

/-- Where the tuples are too long, there is no forest of any words. -/
theorem build_overflow (long : capacity < 4 * (p.factors + 1)) {sentence : List WordId}
    (some_word : sentence ≠ []) : p.build sentence = .error .capacityOverflow := by
  have closing : p.tryRoot (p.parse sentence) = .error .capacityOverflow := by
    rw [tryRoot, tryRootLabels, Labels.tryUniform, reserve, if_neg (Nat.not_le_of_lt long)]
    rfl
  rw [build]
  rcases p.foldlM_buildSpan_gives sentence with filled | ⟨-, stopped⟩
  · rw [filled]
    cases sentence with
    | nil => exact absurd rfl some_word
    | cons word words =>
        change (discard (p.tryRoot (p.parse (word :: words))) >>= fun _ => _) = _
        rw [closing]
        rfl
  · rw [stopped]
    rfl

namespace HasRoom

variable (h : p.HasRoom)

include h

theorem tryRoot_eq (f : Forest) : p.tryRoot f = .ok (p.root? f) :=
  (p.tryRoot_gives f).eq_ok (Nat.not_lt_of_le h.labels)

/-- Settings that leave room keep no forest from being built. -/
theorem build_eq (sentence : List WordId) : p.build sentence = .ok (p.parse sentence) :=
  (p.build_gives sentence).eq_ok (not_not_intro h)

end HasRoom

end Parser

end PackedForest
