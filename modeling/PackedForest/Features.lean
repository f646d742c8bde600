import PackedForest.Vocabulary

/-!
# Feature vectors

A feature vector gives a value to finitely many feature names. Names come in increasing order
of their numbers, which is also the order of every sum and display, and no name comes twice.
-/

namespace PackedForest

/-- The names with their values, in increasing order of the names. -/
structure Features where
  entries : List (WordId × Float)
  sorted : entries.Pairwise (·.1 < ·.1) := by simp

namespace Features

/-- The vector that gives no name a value. -/
def empty : Features := ⟨[], .nil⟩

def size (f : Features) : Nat := f.entries.length

def isEmpty (f : Features) : Bool := f.entries.isEmpty

def get? (f : Features) (name : WordId) : Option Float := f.entries.lookup name

/-- Sets the value of `name` in a list of entries in increasing order. -/
def insertEntry (name : WordId) (value : Float) : List (WordId × Float) → List (WordId × Float)
  | [] => [(name, value)]
  | entry :: entries =>
    if name < entry.1 then (name, value) :: entry :: entries
    else if name = entry.1 then (name, value) :: entries
    else entry :: insertEntry name value entries

theorem mem_insertEntry {name : WordId} {value : Float} {entries : List (WordId × Float)}
    {e : WordId × Float} (h : e ∈ insertEntry name value entries) :
    e = (name, value) ∨ e ∈ entries := by
  induction entries with
  | nil => simpa [insertEntry] using h
  | cons entry entries ih =>
    rw [insertEntry] at h
    split at h
    · simpa using h
    · split at h
      · rcases List.mem_cons.1 h with h | h
        · exact .inl h
        · exact .inr (List.mem_cons_of_mem _ h)
      · rcases List.mem_cons.1 h with h | h
        · exact .inr (h ▸ List.mem_cons_self)
        · exact (ih h).imp_right (List.mem_cons_of_mem _)

theorem sorted_insertEntry {name : WordId} {value : Float} {entries : List (WordId × Float)}
    (h : entries.Pairwise (·.1 < ·.1)) :
    (insertEntry name value entries).Pairwise (·.1 < ·.1) := by
  induction entries with
  | nil => simp [insertEntry]
  | cons entry entries ih =>
    obtain ⟨first, rest⟩ := List.pairwise_cons.1 h
    rw [insertEntry]
    split
    · next lt =>
      refine List.pairwise_cons.2 ⟨fun e he => ?_, h⟩
      rcases List.mem_cons.1 he with rfl | he
      · exact lt
      · exact Int.lt_trans lt (first e he)
    · split
      · next eq => exact List.pairwise_cons.2 ⟨fun e he => eq ▸ first e he, rest⟩
      · next nlt ne =>
        refine List.pairwise_cons.2 ⟨fun e he => ?_, ih rest⟩
        rcases mem_insertEntry he with rfl | he
        · exact Int.lt_iff_le_and_ne.2 ⟨Int.not_lt.1 nlt, Ne.symm ne⟩
        · exact first e he

/-- The vector with the value of `name` set. -/
def insert (f : Features) (name : WordId) (value : Float) : Features :=
  ⟨insertEntry name value f.entries, sorted_insertEntry f.sorted⟩

/-- The vector of a list of entries; the last value of a name counts. -/
def ofList (entries : List (WordId × Float)) : Features :=
  entries.foldl (fun f entry => f.insert entry.1 entry.2) empty

/-- Adds the values of `g` name by name. A zero of `g` adds nothing, not even its name. -/
def add (f g : Features) : Features :=
  g.entries.foldl
    (fun f entry =>
      if entry.2 != 0.0 then f.insert entry.1 ((f.get? entry.1).getD 0.0 + entry.2) else f)
    f

/-- The sum of all values, in the order of the names. The empty sum is the zero that changes
no number, minus zero. -/
def total (f : Features) : Float := f.entries.foldl (fun sum entry => sum + entry.2) (-0.0)

/-- The values are logarithms of scores. The probability is the exponential of their sum, and
one where that sum is not negative. -/
def probability (f : Features) : Float := if f.total < 0.0 then f.total.exp else 1.0

/-- Whether two vectors give values to the same names and no two values lie further apart
than a millionth. -/
def agrees (f g : Features) : Bool :=
  f.size == g.size &&
    f.entries.all fun entry =>
      match g.get? entry.1 with
      | some value => (value - entry.2).abs ≤ 1e-6
      | none => false

/-- The names with their values, as messages and displays show them. -/
def render (v : Vocabulary) (f : Features) : Except Fault String := do
  let items ← f.entries.mapM fun entry => do
    let name ← v.symbol entry.1
    return s!"\"{name}\": {Decimal.plainText entry.2}"
  return "\x7b" ++ ", ".intercalate items ++ "\x7d"

end Features

end PackedForest
