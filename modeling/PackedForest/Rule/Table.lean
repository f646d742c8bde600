import PackedForest.Rule.Reader
import PackedForest.Text.Lines

/-!
# Rule tables

A rule table has one rule on each line. Blank lines and lines that start with a hash are
skipped, and the first line that is refused ends the reading.
-/

namespace PackedForest

inductive TableError
  | notText
  | rule (lineNumber : Nat) (cause : RuleError)
deriving DecidableEq

def TableError.message : TableError → String
  | notText => "stream did not contain valid UTF-8"
  | rule lineNumber cause => s!"line {lineNumber}: {cause.message}"

/-- Whether a line, without the blanks around it, holds a rule. -/
def isRuleLine (line : List Char) : Bool :=
  match line with
  | [] => false
  | '#' :: _ => false
  | _ => true

/-- Reads the lines from the given number on; `none` stands for a line that is not text. -/
def readLines (factors : Nat) :
    (lineNumber : Nat) → List (Option (List Char)) → Interning TableError (List Rule)
  | _, [] => return []
  | _, none :: _ => throw .notText
  | lineNumber, some line :: lines => do
    let line := Text.trim line
    if isRuleLine line then
      let rule ← (readRule factors line).adapt (.rule lineNumber)
      let rules ← readLines factors (lineNumber + 1) lines
      return rule :: rules
    else readLines factors (lineNumber + 1) lines

/-- Reads a rule table from its lines. -/
def readTable (factors : Nat) (lines : List (Option (List Char))) :
    Interning TableError (List Rule) :=
  readLines factors 1 lines

end PackedForest
