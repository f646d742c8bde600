import Mathlib.Data.List.Forall2
import PackedForest.Fault
import Std.Data.TreeMap.Lemmas

/-!
# Computations with a memo

`Ends` is a contract: from a state with one property, a computation has a value of some kind and
leaves a state with another property, or else it stops. How it may stop is a parameter (`Stops`):
not at all, or with certain faults. There is a rule for each way in which computations are put
together. `Computes` is the same for a value that is given.

The states at hand are memos, and their property is that each entry is the value of its node
(`MemoOf`). The nodes in progress are excepted; a path lists them.
-/

namespace PackedForest

/-- How computations may stop without a value. Nothing runs after that. -/
structure Stops (m : Type → Type) [Monad m] where
  At : {α : Type} → m α → Prop
  bind : ∀ {α β : Type} {x : m α} (f : α → m β), At x → At (x >>= f)

namespace Stops

/-- Computations do not stop. -/
def never (m : Type → Type) [Monad m] : Stops m := ⟨fun _ => False, fun _ h => h⟩

/-- Computations stop with a fault of some kind. -/
def withFault (kind : Fault → Prop) : Stops (Except Fault) where
  At x := ∃ fault, kind fault ∧ x = .error fault
  bind f := by
    rintro ⟨fault, known, rfl⟩
    exact ⟨fault, known, rfl⟩

end Stops

section Ends

variable {m : Type → Type} [Monad m] {σ α β : Type}

/-- From a state with `P`, the computation has a value with `V` and leaves a state with `Q`, unless
it stops. -/
def Ends (stops : Stops m) (P : σ → Prop) (x : StateT σ m α) (V : α → Prop) (Q : σ → Prop) : Prop :=
  ∀ s, P s → (∃ a t, x.run s = pure (a, t) ∧ V a ∧ Q t) ∨ stops.At (x.run s)

namespace Ends

variable {stops : Stops m} {P Q R : σ → Prop} {V : α → Prop} {W : β → Prop}

theorem pure {a : α} (value : V a) (state : ∀ s, P s → Q s) : Ends stops P (Pure.pure a) V Q :=
  fun s holds => .inl ⟨a, s, StateT.run_pure a s, value, state s holds⟩

theorem modify {f : σ → σ} (changed : ∀ s, P s → Q (f s)) :
    Ends stops P (modify f : StateT σ m PUnit) (fun _ => True) Q :=
  fun s holds => .inl ⟨⟨⟩, f s, rfl, trivial, changed s holds⟩

theorem mono {stops' : Stops m} (more : ∀ {α : Type} {x : m α}, stops.At x → stops'.At x)
    {V' : α → Prop} (weaker : ∀ a, V a → V' a) {x : StateT σ m α} (h : Ends stops P x V Q) :
    Ends stops' P x V' Q := by
  intro s holds
  rcases h s holds with ⟨a, t, runs, value, after⟩ | stopped
  · exact .inl ⟨a, t, runs, weaker a value, after⟩
  · exact .inr (more stopped)

variable [LawfulMonad m]

theorem bind {x : StateT σ m α} {f : α → StateT σ m β} (first : Ends stops P x V Q)
    (rest : ∀ a, V a → Ends stops Q (f a) W R) : Ends stops P (x >>= f) W R := by
  intro s holds
  rw [StateT.run_bind]
  rcases first s holds with ⟨a, t, runs, value, between⟩ | stopped
  · rw [runs, pure_bind]
    exact rest a value t between
  · exact .inr (stops.bind _ stopped)

theorem lift {x : m α} {a : α} (known : x = Pure.pure a ∨ stops.At x) (value : V a) :
    Ends stops P (liftM x : StateT σ m α) V P := by
  intro s holds
  have runs : (liftM x : StateT σ m α).run s = x >>= fun a => Pure.pure (a, s) := rfl
  rw [runs]
  rcases known with rfl | stopped
  · exact .inl ⟨a, s, pure_bind .., value, holds⟩
  · exact .inr (stops.bind _ stopped)

/-- The state that is looked at is kept in mind. -/
theorem get_bind {f : σ → StateT σ m α} (rest : ∀ s, P s → Ends stops (· = s) (f s) V Q) :
    Ends stops P (get >>= f) V Q := by
  intro s holds
  have runs : (get >>= f : StateT σ m α).run s = (f s).run s := by simp
  rw [runs]
  exact rest s holds s rfl

theorem foldlM {as : List α} {f : β → α → StateT σ m β}
    (step : ∀ b, W b → ∀ a ∈ as, Ends stops P (f b a) W P) {b : β} (start : W b) :
    Ends stops P (as.foldlM f b) W P := by
  induction as generalizing b with
  | nil => exact .pure start fun _ holds => holds
  | cons a as ih =>
      rw [List.foldlM_cons]
      refine .bind (step b start a List.mem_cons_self) fun b value => ?_
      exact ih (fun b value a later => step b value a (List.mem_cons_of_mem _ later)) value

theorem mapM {as : List α} {f : α → StateT σ m β} {U : α → β → Prop}
    (step : ∀ a ∈ as, Ends stops P (f a) (U a) P) :
    Ends stops P (as.mapM f) (List.Forall₂ U as) P := by
  induction as with
  | nil => exact .pure .nil fun _ holds => holds
  | cons a as ih =>
      obtain ⟨here, later⟩ := List.forall_mem_cons.1 step
      rw [List.mapM_cons]
      refine .bind here fun b value => .bind (ih later) fun bs values => ?_
      exact .pure (.cons value values) fun _ holds => holds

end Ends

end Ends

section Computes

variable {m : Type → Type} [Monad m] {σ α β : Type}

/-- From a state with `P`, the computation has this value and leaves a state with `Q`, unless it
stops. -/
def Computes (stops : Stops m) (P : σ → Prop) (x : StateT σ m α) (a : α) (Q : σ → Prop) : Prop :=
  ∀ s, P s → (∃ t, x.run s = pure (a, t) ∧ Q t) ∨ stops.At (x.run s)

namespace Computes

variable {stops : Stops m} {P Q R : σ → Prop}

/-- The value is of the kind that it alone is of. -/
theorem ends_iff {x : StateT σ m α} {a : α} :
    Ends stops P x (· = a) Q ↔ Computes stops P x a Q := by
  simp only [Ends, Computes, ← and_left_comm, exists_and_left, exists_eq_left]

theorem pure (a : α) : Computes stops P (Pure.pure a) a P :=
  fun s holds => .inl ⟨s, StateT.run_pure a s, holds⟩

theorem modify {f : σ → σ} (changed : ∀ s, P s → Q (f s)) :
    Computes stops P (modify f : StateT σ m PUnit) ⟨⟩ Q :=
  fun s holds => .inl ⟨f s, rfl, changed s holds⟩

theorem mono_stops {stops' : Stops m} (more : ∀ {α : Type} {x : m α}, stops.At x → stops'.At x)
    {x : StateT σ m α} {a : α} (h : Computes stops P x a Q) : Computes stops' P x a Q :=
  fun s holds => (h s holds).imp_right more

variable [LawfulMonad m]

theorem bind {x : StateT σ m α} {a : α} {f : α → StateT σ m β} {b : β}
    (first : Computes stops P x a Q) (rest : Computes stops Q (f a) b R) :
    Computes stops P (x >>= f) b R :=
  ends_iff.1 (.bind (ends_iff.2 first) fun _ same => same ▸ ends_iff.2 rest)

theorem lift {x : m α} {a : α} (known : x = Pure.pure a ∨ stops.At x) :
    Computes stops P (liftM x : StateT σ m α) a P :=
  ends_iff.1 (.lift known rfl)

theorem get_bind {f : σ → StateT σ m α} {a : α}
    (rest : ∀ s, P s → Computes stops P (f s) a Q) : Computes stops P (get >>= f) a Q :=
  ends_iff.1 (.get_bind fun s holds t same => ends_iff.2 (rest s holds) t (same ▸ holds))

theorem foldlM {as : List α} {f : β → α → StateT σ m β} {g : β → α → β}
    (step : ∀ b, ∀ a ∈ as, Computes stops P (f b a) (g b a) P) (b : β) :
    Computes stops P (as.foldlM f b) (as.foldl g b) P := by
  induction as generalizing b with
  | nil => exact .pure b
  | cons a as ih =>
      rw [List.foldlM_cons, List.foldl_cons]
      exact .bind (step b a List.mem_cons_self)
        (ih (fun b a later => step b a (List.mem_cons_of_mem _ later)) (g b a))

theorem mapM {as : List α} {f : α → StateT σ m β} {g : α → β}
    (step : ∀ a ∈ as, Computes stops P (f a) (g a) P) :
    Computes stops P (as.mapM f) (as.map g) P := by
  induction as with
  | nil => exact .pure []
  | cons a as ih =>
      rw [List.mapM_cons, List.map_cons]
      exact .bind (step a List.mem_cons_self) <|
        .bind (ih fun a later => step a (List.mem_cons_of_mem _ later)) (.pure _)

end Computes

end Computes

section MemoOf

variable {β : Type} {value : Nat → β} {path : List Nat} {memo : Std.TreeMap Nat β}

/-- Apart from those on the path, the entries of a memo are the values of their nodes. -/
def MemoOf (value : Nat → β) (path : List Nat) (memo : Std.TreeMap Nat β) : Prop :=
  ∀ id ∉ path, ∀ b, memo[id]? = some b → b = value id

namespace MemoOf

theorem empty (value : Nat → β) (path : List Nat) : MemoOf value path ∅ := by
  intro id _ b entry
  simp at entry

/-- A node that is entered may have any entry. -/
theorem enter (h : MemoOf value path memo) (id : Nat) (b : β) :
    MemoOf value (id :: path) (memo.insert id b) := by
  intro other outside found entry
  rw [List.mem_cons, not_or] at outside
  rw [Std.TreeMap.getElem?_insert, if_neg (by simpa using Ne.symm outside.1)] at entry
  exact h other outside.2 found entry

/-- A node that is left has its value. -/
theorem leave {id : Nat} (h : MemoOf value (id :: path) memo) :
    MemoOf value path (memo.insert id (value id)) := by
  intro other outside found entry
  rw [Std.TreeMap.getElem?_insert] at entry
  split at entry
  · next same =>
      rw [← Std.compare_eq_iff_eq.1 same]
      exact (Option.some.inj entry).symm
  · next differ =>
      have ne : other ≠ id := fun same => differ (Std.compare_eq_iff_eq.2 same.symm)
      exact h other (by simp [ne, outside]) found entry

/-- A node without a path of its own is entered and left at once. -/
theorem insert (h : MemoOf value path memo) (id : Nat) :
    MemoOf value path (memo.insert id (value id)) := by
  have entered : MemoOf value (id :: path) memo := fun other outside =>
    h other fun inside => outside (List.mem_cons_of_mem _ inside)
  exact entered.leave

end MemoOf

end MemoOf

end PackedForest
