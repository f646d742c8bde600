import PackedForest.Text.Blank

/-!
# Lines of a file

A file is bytes; each of its lines is read as text on its own, so one line that is not UTF-8
leaves the lines before it readable. A line ends at a newline. Nothing follows the last
newline unless there is text after it.
-/

namespace PackedForest.Text

/-- The pieces that a newline ends, and the last one if it is not empty. -/
def linesWhere (isNewline : α → Bool) (as : List α) : List (List α) :=
  let pieces := splitWhere isNewline as
  if pieces.getLast?.all (·.isEmpty) then pieces.dropLast else pieces

/-- The lines of a text. -/
def lines (cs : List Char) : List (List Char) := linesWhere (· == '\n') cs

/-- The characters that some bytes are the UTF-8 form of, if they are. -/
def decode? (bytes : List UInt8) : Option (List Char) :=
  (String.fromUTF8? ⟨bytes.toArray⟩).map String.toList

/-- The lines of a file; `none` stands for a line that is not UTF-8. -/
def linesOfBytes (bytes : List UInt8) : List (Option (List Char)) :=
  (linesWhere (· == 10) bytes).map decode?

end PackedForest.Text
