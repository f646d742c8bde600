import PackedForest.Text.Blank

/-!
# Columns between marks

A mark is a fixed text such as three bars. It parts two columns together with the blanks on
both its sides, and is looked for from the left, so four bars are a mark and a bar.
-/

namespace PackedForest.Text

/-- The pieces between the occurrences of `mark :: marks`, found from left to right without
overlap. -/
def cut (mark : Char) (marks : List Char) : List Char → List (List Char)
  | [] => [[]]
  | c :: cs =>
    if (mark :: marks).isPrefixOf (c :: cs) then
      [] :: cut mark marks (cs.drop marks.length)
    else match cut mark marks cs with
      | [] => [[c]]
      | piece :: pieces => (c :: piece) :: pieces
termination_by cs => cs.length
decreasing_by
  · simp only [List.length_drop, List.length_cons]; omega
  · simp

/-- Drops the blanks that touch a mark from the pieces that follow one. -/
def trimRest : List (List Char) → List (List Char)
  | [] => []
  | [piece] => [trimStart piece]
  | piece :: pieces => trim piece :: trimRest pieces

/-- Drops the blanks that touch a mark: every piece but the first has one before it, every
piece but the last has one after it. -/
def trimInner : List (List Char) → List (List Char)
  | [] => []
  | [piece] => [piece]
  | piece :: pieces => trimEnd piece :: trimRest pieces

/-- The columns of a text whose columns are parted by `mark :: marks`. -/
def columns (mark : Char) (marks : List Char) (cs : List Char) : List (List Char) :=
  trimInner (cut mark marks cs)

/-- The text before and after the last occurrence of a character, if there is one. -/
def cutLast? (mark : Char) : List Char → Option (List Char × List Char)
  | [] => none
  | c :: cs =>
    match cutLast? mark cs with
    | some (before, after) => some (c :: before, after)
    | none => if c = mark then some ([], cs) else none

theorem eq_of_cutLast?_eq_some {mark : Char} {cs before after : List Char}
    (h : cutLast? mark cs = some (before, after)) : cs = before ++ mark :: after := by
  induction cs generalizing before with
  | nil => cases h
  | cons c cs ih =>
    rw [cutLast?] at h
    split at h
    · next heq =>
      cases h
      rw [ih heq, List.cons_append]
    · split at h
      · next hc => cases h; rw [hc, List.nil_append]
      · cases h

end PackedForest.Text
