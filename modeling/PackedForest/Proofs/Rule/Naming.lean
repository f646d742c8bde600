import PackedForest.Proofs.Features
import PackedForest.Proofs.Rule.Shape
import PackedForest.Proofs.Vocabulary

/-!
# The numbers in the rules that are read

Every number in a rule was handed out by the vocabulary while the rule was read: those of its
words, its labels and the names of its features. So the vocabulary that the reader leaves names
them all (`readTable_named`), and so does every later one.

`Interning.Leaves` is what is said of a reader from a given vocabulary on: it only adds strings,
and what it returns has some property in the vocabulary that it leaves.
-/

namespace PackedForest

open Vocabulary

/-- From a vocabulary on, the reader only adds strings, and the value it returns has the property
in the vocabulary that it leaves. -/
structure Interning.Leaves {ε α : Type} (v : Vocabulary) (x : Interning ε α)
    (P : Vocabulary → α → Prop) : Prop where
  grows : (x.run.run v).2.Extends v
  returns : ∀ {a : α}, (x.run.run v).1 = .ok a → P (x.run.run v).2 a

namespace Interning.Leaves

variable {ε δ α β : Type} {v : Vocabulary} {P P' : Vocabulary → α → Prop}
  {Q : Vocabulary → β → Prop}

theorem pure {a : α} (h : P v a) : Leaves v (Pure.pure a : Interning ε α) P where
  grows := .refl v
  returns result := by
    cases result
    exact h

theorem throw (e : ε) : Leaves v (MonadExcept.throw e : Interning ε α) P where
  grows := .refl v
  returns result := by cases result

theorem intern (s : String) :
    Leaves v (PackedForest.intern s : Interning ε Nat) fun v' id => v'.symbol id = .ok s where
  grows := intern_extends v s
  returns result := by
    cases result
    exact symbol_intern v s

/-- A step that numbers strings and cannot fail. -/
theorem state {x : StateM Vocabulary α} (grows : (x.run v).2.Extends v)
    (h : P (x.run v).2 (x.run v).1) : Leaves v (liftM x : Interning ε α) P where
  grows := grows
  returns result := by
    cases result
    exact h

/-- A step that asks for no number. -/
theorem lift (x : Except ε α) :
    Leaves v (liftM x : Interning ε α) fun _ a => x = .ok a where
  grows := .refl v
  returns result := result

theorem bind {x : Interning ε α} {f : α → Interning ε β} (first : Leaves v x P)
    (rest : ∀ v' a, v'.Extends v → P v' a → Leaves v' (f a) Q) : Leaves v (x >>= f) Q := by
  have run : (x >>= f).run.run v = match (x.run.run v).1 with
      | .ok a => (f a).run.run (x.run.run v).2
      | .error e => (.error e, (x.run.run v).2) := by
    rw [ExceptT.run_bind, StateT.run_bind]
    rcases x.run.run v with ⟨_ | _, _⟩ <;> rfl
  constructor
  · rw [run]
    cases returned : (x.run.run v).1 with
    | ok a => exact (rest _ a first.grows (first.returns returned)).grows.trans first.grows
    | error e => exact first.grows
  · intro b result
    rw [run] at result ⊢
    cases returned : (x.run.run v).1 with
    | ok a =>
        rw [returned] at result
        exact (rest _ a first.grows (first.returns returned)).returns result
    | error e =>
        rw [returned] at result
        cases result

theorem mono (h : Leaves v x P) (weaker : ∀ v' a, v'.Extends v → P v' a → P' v' a) :
    Leaves v x P' where
  grows := h.grows
  returns result := weaker _ _ h.grows (h.returns result)

/-- A check that ends the reading. -/
theorem check {c : Prop} [Decidable c] {e : ε} {f : PUnit → Interning ε α} {x : Interning ε α}
    (rest : ¬ c → Leaves v x P) : Leaves v (if c then MonadExcept.throw e >>= f else x) P := by
  split
  · exact bind (throw e (P := fun _ _ => False)) fun _ _ _ impossible => impossible.elim
  · next passed => exact rest passed

theorem adapt {x : Interning ε α} (h : Leaves v x P) (f : ε → δ) :
    Leaves v (ExceptT.adapt f x) P := by
  constructor
  · rw [run_adapt]
    exact h.grows
  · intro a result
    rw [run_adapt] at result ⊢
    cases returned : (x.run.run v).1 with
    | ok b =>
        rw [returned] at result
        cases result
        exact h.returns returned
    | error e =>
        rw [returned] at result
        cases result

theorem mapM {f : α → Interning ε β} {as : List α}
    (keeps : ∀ {v v' : Vocabulary} {b}, v'.Extends v → Q v b → Q v' b)
    (each : ∀ v, ∀ a ∈ as, Leaves v (f a) Q) :
    Leaves v (as.mapM f) fun v' bs => ∀ b ∈ bs, Q v' b := by
  induction as generalizing v with
  | nil => exact .pure (by simp)
  | cons a as ih =>
      obtain ⟨here, later⟩ := List.forall_mem_cons.1 fun a listed v => each v a listed
      rw [List.mapM_cons]
      refine .bind (here v) fun v' b _ first => .bind (ih fun v a listed => later a listed v) ?_
      intro v'' bs more rest
      exact .pure (List.forall_mem_cons.2 ⟨keeps more first, rest⟩)

end Interning.Leaves

open Interning (Leaves)

section Named

variable (v : Vocabulary)

/-- The vocabulary names all labels. -/
def Labels.Named (l : Labels) : Prop := ∀ label ∈ l.toList, v.Names label

/-- The vocabulary names the symbol, if it is a word. -/
def Symbol.Named : Symbol → Prop
  | .word id => v.Names id
  | .slot _ => True

def Gaps.Named (gaps : Gaps) : Prop := ∀ gap ∈ gaps, gap.2.Named v

/-- The vocabulary names every number in the rule. -/
structure Rule.Named (r : Rule) : Prop where
  source : ∀ symbol ∈ r.source, symbol.Named v
  targets : ∀ side ∈ r.targets, ∀ symbol ∈ side, symbol.Named v
  head : r.head.Named v
  slots : ∀ labels ∈ r.slots, labels.Named v
  features : ∀ entry ∈ r.features.entries, v.Names entry.1

variable {v}

namespace Labels.Named

theorem uniform {label : WordId} (named : v.Names label) (factors : Nat) :
    (Labels.uniform label factors).Named v := by
  intro l listed
  rcases List.mem_cons.1 listed with rfl | target
  · exact named
  · rw [List.eq_of_mem_replicate target]
    exact named

theorem setTarget {l : Labels} (h : l.Named v) {label : WordId} (named : v.Names label)
    (factor : Nat) : (l.setTarget factor label).Named v := by
  intro other listed
  rcases List.mem_cons.1 listed with rfl | target
  · exact h _ List.mem_cons_self
  · rcases List.mem_or_eq_of_mem_set target with old | rfl
    · exact h _ (List.mem_cons_of_mem _ old)
    · exact named

end Labels.Named

theorem Gaps.Named.setTarget {gaps : Gaps} (h : gaps.Named v) {label : WordId}
    (named : v.Names label) (slot factor : Nat) :
    (gaps.setTarget slot factor label).Named v := by
  intro gap listed
  obtain ⟨place, inside, rfl⟩ := List.getElem_of_mem listed
  rw [Gaps.setTarget, List.length_modify] at inside
  have old := h _ (List.getElem_mem inside)
  simp only [Gaps.setTarget, List.getElem_modify]
  split
  · exact old.setTarget named factor
  · exact old

section Mono

variable {v' : Vocabulary} (more : v'.Extends v)

include more

theorem Symbol.Named.mono {symbol : Symbol} (h : symbol.Named v) : symbol.Named v' := by
  cases symbol with
  | word id => exact more.names h
  | slot index => trivial

theorem Labels.Named.mono {l : Labels} (h : l.Named v) : l.Named v' :=
  fun label listed => more.names (h label listed)

theorem Gaps.Named.mono {gaps : Gaps} (h : gaps.Named v) : gaps.Named v' :=
  fun gap listed => (h gap listed).mono more

theorem Rule.Named.mono {r : Rule} (h : r.Named v) : r.Named v' where
  source symbol listed := (h.source symbol listed).mono more
  targets side listed symbol inside := (h.targets side listed symbol inside).mono more
  head := h.head.mono more
  slots labels listed := (h.slots labels listed).mono more
  features entry listed := more.names (h.features entry listed)

end Mono

end Named

/-- The words of the source side are named, and so are the labels of the slots that it opens. -/
theorem readSource_named (factors : Nat) (line : List Char) {v : Vocabulary} {gaps : Gaps}
    (tokens : List Token) (named : gaps.Named v) :
    Leaves v (readSource factors line gaps tokens) fun v' read =>
      (∀ symbol ∈ read.1, symbol.Named v') ∧ read.2.Named v' := by
  induction tokens generalizing v gaps with
  | nil => exact .pure ⟨by simp, named⟩
  | cons token tokens ih =>
      cases token with
      | word text =>
          rw [readSource]
          refine .bind (.intern _) fun v₁ id more word => .bind (ih (named.mono more)) ?_
          rintro v₂ ⟨symbols, all⟩ later ⟨rest, gaps_named⟩
          exact .pure ⟨List.forall_mem_cons.2 ⟨later.names ⟨_, word⟩, rest⟩, gaps_named⟩
      | gap name label =>
          rw [readSource]
          refine .check fun _ => .bind (.intern _) fun v₁ id more word => .bind (ih ?_) ?_
          · intro gap listed
            rcases List.mem_append.1 listed with old | new
            · exact named.mono more gap old
            · rw [List.mem_singleton.1 new]
              exact .uniform ⟨_, word⟩ factors
          · rintro v₂ ⟨symbols, all⟩ later ⟨rest, gaps_named⟩
            exact .pure ⟨List.forall_mem_cons.2 ⟨trivial, rest⟩, gaps_named⟩

theorem readTarget_named (factor : Nat) (line : List Char) {v : Vocabulary} {gaps : Gaps}
    (tokens : List Token) (named : gaps.Named v) :
    Leaves v (readTarget factor line gaps tokens) fun v' read =>
      (∀ symbol ∈ read.1, symbol.Named v') ∧ read.2.Named v' := by
  induction tokens generalizing v gaps with
  | nil => exact .pure ⟨by simp, named⟩
  | cons token tokens ih =>
      cases token with
      | word text =>
          rw [readTarget]
          refine .bind (.intern _) fun v₁ id more word => .bind (ih (named.mono more)) ?_
          rintro v₂ ⟨symbols, all⟩ later ⟨rest, gaps_named⟩
          exact .pure ⟨List.forall_mem_cons.2 ⟨later.names ⟨_, word⟩, rest⟩, gaps_named⟩
      | gap name label =>
          rw [readTarget]
          split
          · exact .throw _
          · refine .bind (.intern _) fun v₁ id more word => .bind (ih ?_) ?_
            · exact (named.mono more).setTarget ⟨_, word⟩ _ factor
            · rintro v₂ ⟨symbols, all⟩ later ⟨rest, gaps_named⟩
              exact .pure ⟨List.forall_mem_cons.2 ⟨trivial, rest⟩, gaps_named⟩

theorem readTargets_named (line : List Char) (factor : Nat) {v : Vocabulary} {head : Labels}
    {gaps : Gaps} (texts : List (List Char)) (head_named : head.Named v) (named : gaps.Named v) :
    Leaves v (readTargets line factor head gaps texts) fun v' read =>
      (∀ side ∈ read.1, ∀ symbol ∈ side, symbol.Named v') ∧ read.2.1.Named v' ∧
        read.2.2.Named v' := by
  induction texts generalizing v factor head gaps with
  | nil => exact .pure ⟨by simp, head_named, named⟩
  | cons text texts ih =>
      rw [readTargets]
      refine .bind (.lift _) fun v₁ side more _ => ?_
      extract_lets rest
      have rest_named : ∀ {v : Vocabulary} {head : Labels}, head.Named v → gaps.Named v →
          Leaves v (rest head) fun v' read => (∀ side ∈ read.1, ∀ symbol ∈ side, symbol.Named v') ∧
            read.2.1.Named v' ∧ read.2.2.Named v' := by
        intro v head head_named named
        refine .bind (readTarget_named factor line _ named) ?_
        rintro v₂ ⟨target, gaps₂⟩ more ⟨target_named, named₂⟩
        refine .bind (ih _ (head_named.mono more) named₂) ?_
        rintro v₃ ⟨targets, head₃, gaps₃⟩ later ⟨targets_named, head_named₃, named₃⟩
        refine .pure ⟨List.forall_mem_cons.2 ⟨?_, targets_named⟩, head_named₃, named₃⟩
        exact fun symbol listed => (target_named symbol listed).mono later
      split
      · refine .bind (.pure (head_named.mono more)) fun v₂ head' more' named' => ?_
        exact rest_named named' (named.mono (more'.trans more))
      · refine .bind (.intern _) fun v₂ id more' word => ?_
        exact rest_named (((head_named.mono more).mono more').setTarget ⟨_, word⟩ factor)
          (named.mono (more'.trans more))

theorem readFeatures_named (column : List Char) (v : Vocabulary) :
    Leaves v (readFeatures column) fun v' f => ∀ entry ∈ f.entries, v'.Names entry.1 := by
  have each : ∀ v, ∀ pair ∈ Text.words column,
      Leaves v (readFeature pair) fun v' entry => v'.Names entry.1 := by
    intro v pair _
    unfold readFeature
    split
    · exact .throw _
    · refine .check fun _ => ?_
      split
      · exact .throw _
      · exact .bind (.intern _) fun v' id _ word => .pure ⟨_, word⟩
  refine .bind (.mapM (Q := fun v entry => v.Names entry.1) (fun more => more.names) each) ?_
  intro v' entries _ named
  exact .pure fun entry listed => named entry (Features.mem_ofList listed)

theorem readRule_named (factors : Nat) (line : List Char) (v : Vocabulary) :
    Leaves v (readRule factors line) fun v' r => r.Named v' := by
  rw [readRule]
  split
  · refine .bind (.lift _) fun v₁ side _ _ => .check fun _ => ?_
    refine .bind (.intern _) fun v₂ label _ word => ?_
    refine .bind (readSource_named factors line _ (by simp [Gaps.Named])) ?_
    rintro v₃ ⟨source, gaps⟩ more₃ ⟨source_named, named₃⟩
    refine .check fun _ => .bind (readTargets_named line 0 _ ?_ named₃) ?_
    · exact .uniform (more₃.names ⟨_, word⟩) factors
    · rintro v₄ ⟨targets, head, gaps'⟩ more₄ ⟨targets_named, head_named, named₄⟩
      refine .bind ((readFeatures_named _ v₄).adapt _) fun v₅ features more₅ features_named => ?_
      refine .pure ⟨?_, ?_, head_named.mono more₅, ?_, features_named⟩
      · exact fun symbol listed => (source_named symbol listed).mono (more₅.trans more₄)
      · exact fun side listed symbol inside => (targets_named side listed symbol inside).mono more₅
      · intro labels listed
        obtain ⟨gap, inside, rfl⟩ := List.mem_map.1 listed
        exact (named₄ gap inside).mono more₅
  · exact .throw _

/-- What the reader of a rule leaves is left by the reader of a table, if later strings keep it. -/
theorem readLines_leaves {Q : Vocabulary → Rule → Prop} {factors : Nat}
    (keeps : ∀ {v v' : Vocabulary} {r}, v'.Extends v → Q v r → Q v' r)
    (each : ∀ line v, Leaves v (readRule factors line) Q) (lineNumber : Nat)
    (lines : List (Option (List Char))) (v : Vocabulary) :
    Leaves v (readLines factors lineNumber lines) fun v' rules => ∀ r ∈ rules, Q v' r := by
  induction lines generalizing v lineNumber with
  | nil => exact .pure (by simp)
  | cons line lines ih =>
      cases line with
      | none => exact .throw _
      | some line =>
          rw [readLines]
          split
          · refine .bind ((each _ v).adapt _) fun v₁ r _ first => ?_
            refine .bind (ih _ v₁) fun v₂ rules more rest => .pure ?_
            exact List.forall_mem_cons.2 ⟨keeps more first, rest⟩
          · exact ih _ v

/-- The vocabulary that the reader of a table leaves names every number in its rules. -/
theorem readTable_named (factors : Nat) (lines : List (Option (List Char))) (v : Vocabulary) :
    Leaves v (readTable factors lines) fun v' rules => ∀ r ∈ rules, r.Named v' :=
  readLines_leaves (fun more named => named.mono more) (readRule_named factors) 1 lines v

end PackedForest
