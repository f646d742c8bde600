import PackedForest.Json.Shape

/-!
# Runs of readers

A reader that succeeds goes from one rest of the text to a shorter one. `Reader.Runs` says so of
one start, with a rule for each way in which readers are put together.

What was written for a value is read in the middle of a longer text, before a comma, a bracket or a
quote. `Reads` says that a reader takes exactly this text there and returns the value; it is what is
proved of every shape of value, from its parts.
-/

namespace PackedForest.Json

variable {α β : Type}

/-- From some rest of a text, whose length is bounded by `size`, the reader returns a value and
leaves another rest. -/
def Reader.Runs (reader : Reader α) (size : Nat) (text : List Char) (a : α) (rest : List Char) :
    Prop :=
  (reader.run size).run text = .ok (a, rest)

def isBlank (c : Char) : Bool := c = ' ' || c = '\n' || c = '\t' || c = '\r'

namespace Reader.Runs

variable {x : Reader α} {f : α → Reader β} {size : Nat} {text middle rest : List Char} {a : α}
  {b : β} {c : Char}

theorem pure : (Pure.pure a : Reader α).Runs size text a text := rfl

theorem bind (first : x.Runs size text a middle) (second : (f a).Runs size middle b rest) :
    (x >>= f).Runs size text b rest := by
  rw [Runs, ReaderT.run_bind, StateT.run_bind, first]
  exact second

theorem exists_of_bind (h : (x >>= f).Runs size text b rest) :
    ∃ a middle, x.Runs size text a middle ∧ (f a).Runs size middle b rest := by
  rw [Runs, ReaderT.run_bind, StateT.run_bind] at h
  cases first : (x.run size).run text with
  | error flaw =>
      rw [first] at h
      cases h
  | ok result =>
      rw [first] at h
      exact ⟨result.1, result.2, first, h⟩

theorem not_throw {flaw : Flaw} : ¬ (throw flaw : Reader α).Runs size text a rest :=
  fun h => by cases h

/-- A reader that gives two results from one start gives the same twice. -/
theorem unique {a' : α} {rest' : List Char} (h : x.Runs size text a rest)
    (h' : x.Runs size text a' rest') : a = a' ∧ rest = rest' :=
  Prod.mk.inj (Except.ok.inj (h.symm.trans h'))

theorem budget : Json.budget.Runs size text size text := rfl

theorem next? : Json.next?.Runs size text text.head? text := rfl

theorem skip : Json.skip.Runs size (c :: text) () text := rfl

theorem take {flaw : Flaw} : (Json.take flaw).Runs size (c :: text) c text := rfl

theorem peek? (visible : isBlank c = false) :
    Json.peek?.Runs size (c :: text) (some c) (c :: text) := by
  have kept : (c :: text).dropWhile isBlank = c :: text := by
    rw [List.dropWhile_cons, visible]
    rfl
  exact bind (congrArg (fun t => Except.ok ((), t)) kept) next?

theorem expect (cs : List Char) : (Json.expect cs).Runs size (cs ++ text) () text := by
  induction cs with
  | nil => exact pure
  | cons c cs ih =>
      refine bind take ?_
      rw [if_pos rfl]
      exact ih

end Reader.Runs

/-- What may come after a value: a comma, a bracket, or the quote after a key. -/
def Parts (c : Char) : Prop := c = ',' ∨ c = ']' ∨ c = '\x7d' ∨ c = '"'

instance (c : Char) : Decidable (Parts c) := inferInstanceAs (Decidable (_ ∨ _ ∨ _ ∨ _))

def Parted (rest : List Char) : Prop := ∀ c ∈ rest.head?, Parts c

theorem Parted.nil : Parted [] := by
  rintro c ⟨⟩

theorem Parted.cons {c : Char} (parts : Parts c) (rest : List Char) : Parted (c :: rest) := by
  rintro c ⟨⟩
  exact parts

/-- A value is there: neither a blank nor what comes after a value. -/
def Opens (c : Char) : Prop := isBlank c = false ∧ c ≠ ',' ∧ c ≠ ']' ∧ c ≠ '\x7d'

instance (c : Char) : Decidable (Opens c) := inferInstanceAs (Decidable (_ ∧ _ ∧ _ ∧ _))

/-- The reader takes the text as the value, whatever comes after it. -/
structure Reads (reader : Reader α) (text : List Char) (a : α) : Prop where
  opens : ∃ c cs, text = c :: cs ∧ Opens c
  runs : ∀ {size : Nat} {rest : List Char}, Parted rest → (text ++ rest).length < size →
    reader.Runs size (text ++ rest) a rest

namespace Reads

variable {reader : Reader α} {text : List Char} {a : α}

/-- The value is read from a text that holds nothing else. -/
theorem parse (h : Reads reader text a) : Json.parse reader text = .ok a := by
  have run := h.runs .nil (by simp : (text ++ []).length < text.length + 1)
  rw [List.append_nil] at run
  rw [Json.parse, run]
  rfl

/-- What is made of the value afterwards. -/
theorem map (h : Reads reader text a) (f : α → β) : Reads (f <$> reader) text (f a) where
  opens := h.opens
  runs parted short := by
    rw [map_eq_pure_bind]
    exact (h.runs parted short).bind .pure

/-- The same reader, written in another way. -/
theorem bind_pure (h : Reads reader text a) (f : α → β) :
    Reads (reader >>= fun a => Pure.pure (f a)) text (f a) where
  opens := h.opens
  runs parted short := (h.runs parted short).bind .pure

end Reads

end PackedForest.Json
