import PackedForest.Text.CodePoints

/-!
# Blank characters and the words between them

Blank means the property `White_Space`, so a no-break space parts two words and a zero-width
space does not. `words` is the reading that sentences, rule sides and feature columns share.
-/

namespace PackedForest.Text

def blankPoints : CodePoints :=
  [(0x9, 0xd), (0x20, 0x20), (0x85, 0x85), (0xa0, 0xa0), (0x1680, 0x1680), (0x2000, 0x200a),
   (0x2028, 0x2029), (0x202f, 0x202f), (0x205f, 0x205f), (0x3000, 0x3000)]

/-- A character with the property `White_Space`. -/
def isBlank (c : Char) : Bool := blankPoints.contains c

def trimStart (cs : List Char) : List Char := cs.dropWhile isBlank

def trimEnd (cs : List Char) : List Char := (cs.reverse.dropWhile isBlank).reverse

/-- The text without the blanks at its two ends. -/
def trim (cs : List Char) : List Char := trimEnd (trimStart cs)

/-- The pieces between the elements that satisfy `p`, empty ones included. -/
def splitWhere (p : α → Bool) : List α → List (List α)
  | [] => [[]]
  | a :: as =>
    if p a then [] :: splitWhere p as
    else match splitWhere p as with
      | [] => [[a]]
      | piece :: pieces => (a :: piece) :: pieces

theorem splitWhere_ne_nil (p : α → Bool) (as : List α) : splitWhere p as ≠ [] := by
  cases as with
  | nil => simp [splitWhere]
  | cons a as =>
    rw [splitWhere]
    split
    · simp
    · split <;> simp

theorem splitWhere_of_forall_not {p : α → Bool} {as : List α} (h : ∀ a ∈ as, p a = false) :
    splitWhere p as = [as] := by
  induction as with
  | nil => rfl
  | cons a as ih =>
    rw [splitWhere, ih fun b hb => h b (List.mem_cons_of_mem a hb), h a List.mem_cons_self]
    rfl

/-- A separator ends the piece before it and starts the next. -/
theorem splitWhere_append_cons {p : α → Bool} {as : List α} {sep : α} (rest : List α)
    (h : ∀ a ∈ as, p a = false) (hsep : p sep = true) :
    splitWhere p (as ++ sep :: rest) = as :: splitWhere p rest := by
  induction as with
  | nil => simp [splitWhere, hsep]
  | cons a as ih =>
    rw [List.cons_append, splitWhere, ih fun b hb => h b (List.mem_cons_of_mem a hb),
      h a List.mem_cons_self]
    rfl

/-- The maximal runs of characters that are not blank, in order. -/
def words (cs : List Char) : List (List Char) := (splitWhere isBlank cs).filter (!·.isEmpty)

end PackedForest.Text
