import PackedForest.Json.Reader

/-!
# Strings in JSON

A string may hold any character but a control. Escapes give a character by a letter or by its
code point, which takes two escapes beyond the first plane.
-/

namespace PackedForest.Json

/-- The value of a digit of base sixteen. -/
def hexValue? (c : Char) : Option Nat :=
  if c.isDigit then some (c.toNat - 48)
  else if 'a' ≤ c ∧ c ≤ 'f' then some (c.toNat - 87)
  else if 'A' ≤ c ∧ c ≤ 'F' then some (c.toNat - 55)
  else none

/-- Takes four digits of base sixteen. A text with less than four bytes left stops too early. -/
def hexEscape : Reader Nat := do
  let four := (← get).take 4
  match four.mapM hexValue? with
  | some [a, b, c, d] => do
    modify (·.drop 4)
    return ((a * 16 + b) * 16 + c) * 16 + d
  | _ => throw (if (String.ofList four).utf8ByteSize < 4 then .truncated else .malformed)

/-- Takes a character that has to be there. -/
def require (c : Char) : Reader Unit := do
  match ← next? with
  | none => throw .truncated
  | some found => if found = c then skip else throw .malformed

/-- The character of a code point given by one escape, or by two that form a pair. -/
def unicodeEscape : Reader Char := do
  let unit ← hexEscape
  if unit < 0xd800 || 0xdfff < unit then return .ofNat unit
  if 0xdc00 ≤ unit then throw .malformed
  require '\\'
  require 'u'
  let low ← hexEscape
  if low < 0xdc00 || 0xdfff < low then throw .malformed
  return .ofNat ((unit - 0xd800) * 0x400 + (low - 0xdc00) + 0x10000)

/-- The character that a letter after a backslash stands for. -/
def shortEscape? : Char → Option Char
  | '"' => some '"'
  | '\\' => some '\\'
  | '/' => some '/'
  | 'b' => some '\x08'
  | 'f' => some '\x0c'
  | 'n' => some '\n'
  | 'r' => some '\r'
  | 't' => some '\t'
  | _ => none

/-- An escape after its backslash. -/
def escapeSequence : Reader Char := do
  let c ← take .truncated
  if c = 'u' then unicodeEscape
  else match shortEscape? c with
    | some meant => return meant
    | none => throw .malformed

/-- A string after its opening quote. -/
def stringFrom : (fuel : Nat) → Reader (List Char)
  | 0 => throw .truncated
  | fuel + 1 => do
    let c ← take .truncated
    if c = '"' then return []
    if c.toNat < 0x20 then throw .malformed
    let meant ← if c = '\\' then escapeSequence else pure c
    return meant :: (← stringFrom fuel)

/-- A string after its opening quote. -/
def stringBody : Reader (List Char) := do stringFrom (← budget)

end PackedForest.Json
