/-!
# Reading JSON

A text is read straight into the type that is wanted, from left to right, so the first flaw on
the way decides how it is refused. There are three kinds: the text is no JSON, it is JSON of
another shape, or it stops too early.

A reader starts where a value may stand and stops right after it. Strings and the brackets of
arrays and objects are read one item at a time; the length of the whole text, which every
reader knows, bounds the number of items.
-/

namespace PackedForest.Json

/-- Why a text is refused. -/
inductive Flaw
  | malformed
  | mismatched
  | truncated
deriving DecidableEq, Repr

/-- A step through the text. The number is the length of the whole text, the state is what is
left of it. -/
abbrev Reader := ReaderT Nat (StateT (List Char) (Except Flaw))

/-- Reads a whole text. Nothing but blanks may follow the value. -/
def parse (reader : Reader α) (text : List Char) : Except Flaw α := do
  let (a, rest) ← (reader.run (text.length + 1)).run text
  if rest.any (fun c => !(c = ' ' || c = '\n' || c = '\t' || c = '\r')) then throw .malformed
  return a

/-- The bound on the number of items, whatever is read. -/
def budget : Reader Nat := read

/-- The next character, if there is one. It is not taken. -/
def next? : Reader (Option Char) := return (← get).head?

/-- Goes past the next character. -/
def skip : Reader Unit := modify List.tail

/-- Takes the next character. -/
def take (atEnd : Flaw) : Reader Char := do
  match ← get with
  | [] => throw atEnd
  | c :: rest => do
    set rest
    return c

/-- Goes past blanks and sees the next character after them. -/
def peek? : Reader (Option Char) := do
  modify (·.dropWhile fun c => c = ' ' || c = '\n' || c = '\t' || c = '\r')
  next?

/-- Takes exactly these characters. -/
def expect : List Char → Reader Unit
  | [] => return
  | c :: cs => do
    if (← take .truncated) = c then expect cs else throw .malformed

end PackedForest.Json
