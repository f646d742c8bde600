import PackedForest.Fault
import PackedForest.Text.Blank
import Std.Data.TreeMap

/-!
# Vocabularies

A vocabulary numbers strings in the order of their first use. It only grows: a number once
given keeps naming the same string, also when the reader that asked for it fails later on.

The index from strings to numbers is the inverse of the list of strings, by a field of the
type.
-/

namespace PackedForest

/-- Strings numbered from zero, with the index from each string to its number. -/
structure Vocabulary where
  strings : Array String
  index : Std.TreeMap String Nat
  index_eq_some_iff : ∀ (s : String) (i : Nat), index[s]? = some i ↔ strings[i]? = some s

namespace Vocabulary

/-- The vocabulary without strings. -/
def empty : Vocabulary where
  strings := #[]
  index := ∅
  index_eq_some_iff := by simp

instance : Inhabited Vocabulary := ⟨empty⟩

def size (v : Vocabulary) : Nat := v.strings.size

/-- The number of a string, if it has one. -/
def find? (v : Vocabulary) (s : String) : Option Nat := v.index[s]?

theorem find?_eq_some_iff {v : Vocabulary} {s : String} {i : Nat} :
    v.find? s = some i ↔ v.strings[i]? = some s :=
  v.index_eq_some_iff s i

/-- Gives the next number to a string that has none. -/
def push (v : Vocabulary) (s : String) (h : v.find? s = none) : Vocabulary where
  strings := v.strings.push s
  index := v.index.insert s v.strings.size
  index_eq_some_iff := by
    intro t i
    have absent : ∀ j, v.strings[j]? ≠ some s := fun j hj => by
      rw [find?_eq_some_iff.2 hj] at h
      cases h
    rw [Std.TreeMap.getElem?_insert, Array.getElem?_push]
    by_cases hst : s = t
    · subst hst
      by_cases hi : i = v.strings.size
      · simp [hi]
      · simpa [hi, Ne.symm hi] using absent i
    · rw [if_neg (by simpa using hst)]
      by_cases hi : i = v.strings.size
      · subst hi
        simp [hst, v.index_eq_some_iff]
      · simp [hi, v.index_eq_some_iff]

/-- The number of a string, given to it now if it has none. -/
def intern (v : Vocabulary) (s : String) : Nat × Vocabulary :=
  match h : v.find? s with
  | some i => (i, v)
  | none => (v.size, v.push s h)

/-- The string that a number names. -/
def symbol (v : Vocabulary) (id : WordId) : Except Fault String :=
  if id < 0 then .error (.slotHasNoSymbol id)
  else match v.strings[id.toNat]? with
    | some s => .ok s
    | none => .error (.wordOutOfRange id v.size)

/-- The strings of several numbers, parted by single spaces. -/
def phrase (v : Vocabulary) (ids : List WordId) : Except Fault String :=
  return " ".intercalate (← ids.mapM v.symbol)

end Vocabulary

/-- Readers number the strings they meet. The vocabulary is outside the failure, so what was
numbered before an error stays. -/
abbrev Interning (ε α : Type) := ExceptT ε (StateM Vocabulary) α

/-- The number of a string, in a reader. -/
def intern [Monad m] [MonadStateOf Vocabulary m] (s : String) : m Nat :=
  modifyGet (·.intern s)

/-- Numbers the words of a sentence from left to right. -/
def internWords (sentence : String) : StateM Vocabulary (List WordId) :=
  (Text.words sentence.toList).mapM fun word => do
    let id ← intern (String.ofList word)
    return (id : Int)

end PackedForest
