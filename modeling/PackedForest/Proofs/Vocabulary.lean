import Mathlib.Data.List.Forall2
import PackedForest.Vocabulary

/-!
# Vocabularies only grow

A later vocabulary extends an earlier one: what a number names, it keeps naming. A number that was
handed out names the string it was handed out for, so all numbers of a sentence name its words.
-/

namespace PackedForest

/-- A pass over a list succeeds if it does so on every element. -/
theorem mapM_eq_ok_iff {ε α β : Type} {f : α → Except ε β} {as : List α} {bs : List β} :
    as.mapM f = .ok bs ↔ List.Forall₂ (fun a b => f a = .ok b) as bs := by
  induction as generalizing bs with
  | nil =>
      rw [List.mapM_nil, List.forall₂_nil_left_iff]
      exact ⟨fun same => (Except.ok.inj same).symm, fun same => congrArg Except.ok same.symm⟩
  | cons a as ih =>
      rw [List.mapM_cons, List.forall₂_cons_left_iff]
      constructor
      · intro passed
        cases first : f a with
        | error e => rw [first] at passed; cases passed
        | ok b =>
            cases rest : as.mapM f with
            | error e => rw [first, rest] at passed; cases passed
            | ok bs' =>
                rw [first, rest] at passed
                cases passed
                exact ⟨b, bs', rfl, ih.1 rest, rfl⟩
      · rintro ⟨b, bs', first, rest, rfl⟩
        rw [first, ih.2 rest]
        rfl

theorem bind_ok {ε α β : Type} {x : Except ε α} {a : α} {f : α → Except ε β}
    {result : Except ε β} (first : x = .ok a) (second : f a = result) : x >>= f = result := by
  rw [first]
  exact second

theorem mapM_ok {ε α β : Type} {f : α → Except ε β} {g : α → β} {as : List α}
    (each : ∀ a ∈ as, f a = .ok (g a)) : as.mapM f = .ok (as.map g) :=
  mapM_eq_ok_iff.2 (List.forall₂_map_right_iff.2 (List.forall₂_same.2 each))

namespace Vocabulary

variable {v v' v'' : Vocabulary} {id : WordId} {s : String}

/-- The number names a string. -/
def Names (v : Vocabulary) (id : WordId) : Prop := ∃ s, v.symbol id = .ok s

/-- Every string of `v` stands in `v'` under the number it has in `v`. -/
def Extends (v' v : Vocabulary) : Prop :=
  ∀ (i : Nat) (s : String), v.strings[i]? = some s → v'.strings[i]? = some s

theorem symbol_eq_ok_iff : v.symbol id = .ok s ↔ ∃ i : Nat, id = i ∧ v.strings[i]? = some s := by
  unfold symbol
  constructor
  · intro named
    split at named
    · cases named
    · next positive =>
        split at named
        · next found =>
            cases named
            exact ⟨id.toNat, (Int.toNat_of_nonneg (Int.not_lt.1 positive)).symm, found⟩
        · cases named
  · rintro ⟨i, rfl, found⟩
    rw [if_neg (Int.not_lt.2 (Int.natCast_nonneg i)), Int.toNat_natCast, found]

namespace Extends

theorem refl (v : Vocabulary) : v.Extends v := fun _ _ found => found

theorem trans (later : v''.Extends v') (first : v'.Extends v) : v''.Extends v :=
  fun i s found => later i s (first i s found)

theorem symbol (h : v'.Extends v) (named : v.symbol id = .ok s) : v'.symbol id = .ok s := by
  obtain ⟨i, rfl, found⟩ := symbol_eq_ok_iff.1 named
  exact symbol_eq_ok_iff.2 ⟨i, rfl, h i s found⟩

theorem names (h : v'.Extends v) (named : v.Names id) : v'.Names id := by
  obtain ⟨s, named⟩ := named
  exact ⟨s, h.symbol named⟩

end Extends

theorem intern_extends (v : Vocabulary) (s : String) : (v.intern s).2.Extends v := by
  intro i t found
  unfold intern
  split
  · exact found
  · have inside := (Array.getElem?_eq_some_iff.1 found).1
    rw [push, Array.getElem?_push, if_neg (Nat.ne_of_lt inside), found]

/-- A number that is handed out for a string names it. -/
theorem symbol_intern (v : Vocabulary) (s : String) :
    (v.intern s).2.symbol (v.intern s).1 = .ok s := by
  refine symbol_eq_ok_iff.2 ⟨_, rfl, ?_⟩
  unfold intern
  split
  · next found => exact find?_eq_some_iff.1 found
  · exact Array.getElem?_push_size

end Vocabulary

open Vocabulary

theorem mapM_run_cons {α : Type} (f : α → StateM Vocabulary WordId) (a : α) (as : List α)
    (v : Vocabulary) : ((a :: as).mapM f).run v =
      (((f a).run v).1 :: ((as.mapM f).run ((f a).run v).2).1,
        ((as.mapM f).run ((f a).run v).2).2) := by
  rw [List.mapM_cons]
  rfl

/-- The numbers of a sentence name its words. -/
theorem internWords_spec (sentence : String) (v : Vocabulary) :
    ((internWords sentence).run v).2.Extends v ∧
      ((internWords sentence).run v).1.mapM ((internWords sentence).run v).2.symbol =
        .ok ((Text.words sentence.toList).map String.ofList) := by
  unfold internWords
  induction Text.words sentence.toList generalizing v with
  | nil => exact ⟨.refl v, rfl⟩
  | cons word words ih =>
      have here := symbol_intern v (String.ofList word)
      obtain ⟨later, named⟩ := ih (v.intern (String.ofList word)).2
      rw [mapM_run_cons]
      refine ⟨later.trans (intern_extends v _), ?_⟩
      exact mapM_eq_ok_iff.2 (.cons (later.symbol here) (mapM_eq_ok_iff.1 named))

end PackedForest
