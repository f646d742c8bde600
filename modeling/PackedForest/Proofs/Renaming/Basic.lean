import PackedForest.Proofs.Graph.RoundTrip
import PackedForest.Proofs.Rule.Naming

/-!
# Numbers that are renamed

The number of a string depends on what was numbered before it. A renaming changes the numbers of
strings wherever they occur and leaves the slots of rules alone. From one vocabulary to another,
`Vocabulary.translate` is the renaming that goes by the strings.

Two vocabularies that extend the same one agree on its numbers, and their other numbers name other
strings. So the renaming from one to the other neither moves a number of the common part nor makes
another number one of them (`Vocabulary.translate_fixed`), and rules that were read into the common
part stay as they are (`Rule.Named.rename_eq`).
-/

namespace PackedForest

open Vocabulary

/-- A list whose elements stay as they are. -/
theorem map_eq_self {α : Type} {f : α → α} {as : List α} (same : ∀ a ∈ as, f a = a) :
    as.map f = as := by
  conv_rhs => rw [← List.map_id as]
  exact List.map_congr_left same

/-- Renames the number of a string. A number that stands for a slot is none. -/
def renameId (f : Nat → Nat) : WordId → WordId
  | .ofNat id => f id
  | .negSucc slot => .negSucc slot

@[simp] theorem renameId_natCast (f : Nat → Nat) (id : Nat) : renameId f id = f id := rfl

def Symbol.rename (f : Nat → Nat) : Symbol → Symbol
  | .word id => .word (f id)
  | .slot index => .slot index

theorem Symbol.ofId_renameId (f : Nat → Nat) (id : WordId) :
    ofId (renameId f id) = (ofId id).rename f := by
  cases id with
  | ofNat id => rfl
  | negSucc slot => simp [renameId, ofId, slotOf?, Int.negSucc_lt_zero, rename]

def Labels.rename (f : Nat → Nat) (l : Labels) : Labels :=
  ⟨renameId f l.source, l.targets.map (renameId f)⟩

def Features.rename (f : Nat → Nat) (features : Features) : Features :=
  .ofList (features.entries.map fun entry => (renameId f entry.1, entry.2))

def Rule.rename (f : Nat → Nat) (r : Rule) : Rule where
  source := r.source.map (.rename f)
  targets := r.targets.map (List.map (.rename f))
  head := r.head.rename f
  slots := r.slots.map (.rename f)
  features := r.features.rename f
  sourceText := r.sourceText

theorem Rule.rename_passThrough (f : Nat → Nat) (word : WordId) (head : Labels) :
    (passThrough word head).rename f = passThrough (renameId f word) (head.rename f) := by
  simp only [passThrough, rename, Symbol.ofId_renameId, List.map_cons, List.map_nil,
    List.map_replicate, Labels.rename, List.length_map]
  rfl

namespace Vocabulary

/-- The number in `w` of the string that a number names in `v`. A number that has no counterpart
stays as it is. -/
def translate (v w : Vocabulary) (id : Nat) : Nat := (v.strings[id]?.bind w.find?).getD id

/-- The renaming leaves the numbers of the vocabulary alone, and no other number becomes one. -/
def FixedBy (v : Vocabulary) (f : Nat → Nat) : Prop :=
  ∀ id, v.Names id ∨ v.Names (renameId f id) → renameId f id = id

variable {u v w : Vocabulary}

/-- No two numbers name the same string. -/
theorem symbol_injective {id id' : WordId} {s : String} (named : v.symbol id = .ok s)
    (named' : v.symbol id' = .ok s) : id = id' := by
  obtain ⟨i, rfl, here⟩ := symbol_eq_ok_iff.1 named
  obtain ⟨j, rfl, here'⟩ := symbol_eq_ok_iff.1 named'
  rw [← find?_eq_some_iff] at here here'
  rw [Option.some.inj (here.symm.trans here')]

/-- A string keeps its name when its number is translated. -/
theorem renameId_translate {id id' : WordId} {s : String} (named : v.symbol id = .ok s)
    (named' : w.symbol id' = .ok s) : renameId (v.translate w) id = id' := by
  obtain ⟨i, rfl, here⟩ := symbol_eq_ok_iff.1 named
  obtain ⟨j, rfl, there⟩ := symbol_eq_ok_iff.1 named'
  rw [renameId_natCast, translate, here, Option.bind_some, find?_eq_some_iff.2 there,
    Option.getD_some]

/-- A number is translated to one of the same string, or it stays as it is. -/
theorem translate_cases (v w : Vocabulary) (id : WordId) :
    (∃ s, v.symbol id = .ok s ∧ w.symbol (renameId (v.translate w) id) = .ok s) ∨
      renameId (v.translate w) id = id := by
  cases id with
  | negSucc slot => exact .inr rfl
  | ofNat i =>
      change _ ∨ ((v.translate w i : Nat) : Int) = i
      unfold translate
      cases here : v.strings[i]? with
      | none => exact .inr rfl
      | some s =>
          cases there : w.find? s with
          | none => exact .inr (by rw [Option.bind_some, there, Option.getD_none])
          | some j =>
              refine .inl ⟨s, symbol_eq_ok_iff.2 ⟨i, rfl, here⟩, symbol_eq_ok_iff.2 ⟨j, ?_,
                find?_eq_some_iff.1 there⟩⟩
              change ((v.translate w i : Nat) : Int) = j
              rw [translate, here, Option.bind_some, there, Option.getD_some]

theorem translate_fixed (more : v.Extends u) (more' : w.Extends u) : u.FixedBy (v.translate w) := by
  rintro id (⟨s, named⟩ | ⟨s, named⟩)
  · exact renameId_translate (more.symbol named) (more'.symbol named)
  · rcases translate_cases v w id with ⟨t, here, there⟩ | same
    · obtain rfl : s = t := Except.ok.inj ((more'.symbol named).symm.trans there)
      exact symbol_injective (more.symbol named) here
    · exact same

end Vocabulary

section Fixed

variable {v : Vocabulary} {f : Nat → Nat} (fixed : v.FixedBy f)

include fixed

theorem Vocabulary.FixedBy.map_eq {ids : List WordId} (named : ∀ id ∈ ids, v.Names id) :
    ids.map (renameId f) = ids :=
  map_eq_self fun id listed => fixed id (.inl (named id listed))

theorem Symbol.Named.rename_eq {symbol : Symbol} (named : symbol.Named v) :
    symbol.rename f = symbol := by
  cases symbol with
  | slot index => rfl
  | word id => exact congrArg Symbol.word (Int.ofNat.inj (fixed id (.inl named)))

theorem Labels.Named.rename_eq {l : Labels} (named : l.Named v) : l.rename f = l := by
  obtain ⟨source, targets⟩ := List.forall_mem_cons.1 named
  rw [Labels.rename, fixed _ (.inl source), fixed.map_eq targets]

theorem Features.rename_eq {features : Features}
    (named : ∀ entry ∈ features.entries, v.Names entry.1) : features.rename f = features := by
  rw [Features.rename, map_eq_self, ofList_entries]
  exact fun entry listed => congrArg (·, entry.2) (fixed entry.1 (.inl (named entry listed)))

theorem Rule.Named.rename_eq {r : Rule} (named : r.Named v) : r.rename f = r := by
  have side : ∀ side : List Symbol, (∀ symbol ∈ side, symbol.Named v) →
      side.map (.rename f) = side :=
    fun side each => map_eq_self fun symbol listed => (each symbol listed).rename_eq fixed
  rw [Rule.rename, side _ named.source, named.head.rename_eq fixed,
    map_eq_self fun target listed => side target (named.targets target listed),
    map_eq_self fun labels listed => (named.slots labels listed).rename_eq fixed,
    Features.rename_eq fixed named.features]

end Fixed

end PackedForest
