import PackedForest.Json.Numeral
import PackedForest.Json.Text

/-!
# Values that are passed over

The value of a field that nobody asks for may have any shape and any depth. The brackets that
are still open are kept in a list, innermost first.
-/

namespace PackedForest.Json

/-- A number of a value that is passed over. -/
def ignoreNumber : Reader Unit := do
  if (← next?) = some '-' then skip
  let whole ← digits
  if whole.isEmpty || (whole.head? = some '0' && 1 < whole.length) then throw .malformed
  if (← next?) = some '.' then
    skip
    if (← digits).isEmpty then throw .malformed
  if (← next?) = some 'e' || (← next?) = some 'E' then
    skip
    if (← next?) = some '+' || (← next?) = some '-' then skip
    if (← digits).isEmpty then throw .malformed

/-- A string that is passed over, after its opening quote. Its escapes need not make sense
together. -/
def ignoreStringFrom : (fuel : Nat) → Reader Unit
  | 0 => throw .truncated
  | fuel + 1 => do
    let c ← take .truncated
    if c = '"' then return
    if c.toNat < 0x20 then throw .malformed
    if c = '\\' then
      let e ← take .truncated
      if e = 'u' then
        let _ ← hexEscape
      else if (shortEscape? e).isNone then throw .malformed
    ignoreStringFrom fuel

/-- The bracket that closes an array or an object. -/
inductive Bracket
  | square
  | curly
deriving DecidableEq

def Bracket.closing : Bracket → Char
  | square => ']'
  | curly => '\x7d'

/-- The key and the colon before a value inside an object; nothing inside an array. -/
def ignoreKey : Bracket → Reader Unit
  | .square => return
  | .curly => do
    match ← peek? with
    | none => throw .truncated
    | some '"' => do
      skip
      ignoreStringFrom (← budget)
    | some _ => throw .malformed
    match ← peek? with
    | none => throw .truncated
    | some ':' => skip
    | some _ => throw .malformed

mutual

/-- Passes over a value inside the open brackets, and over all that follows until the brackets
are closed. -/
def ignoreFrom : (fuel : Nat) → List Bracket → Reader Unit
  | 0, _ => throw .truncated
  | fuel + 1, opened => do
    match ← peek? with
    | none => throw .truncated
    | some 'n' => do
      expect ['n', 'u', 'l', 'l']
      ignoreAfter fuel opened
    | some 't' => do
      expect ['t', 'r', 'u', 'e']
      ignoreAfter fuel opened
    | some 'f' => do
      expect ['f', 'a', 'l', 's', 'e']
      ignoreAfter fuel opened
    | some '"' => do
      skip
      ignoreStringFrom (← budget)
      ignoreAfter fuel opened
    | some '[' => ignoreOpened fuel .square opened
    | some '\x7b' => ignoreOpened fuel .curly opened
    | some c =>
      if c = '-' || c.isDigit then
        ignoreNumber
        ignoreAfter fuel opened
      else throw .malformed

/-- Passes over an opening bracket and what it holds. -/
def ignoreOpened : (fuel : Nat) → Bracket → List Bracket → Reader Unit
  | 0, _, _ => throw .truncated
  | fuel + 1, bracket, opened => do
    skip
    match ← peek? with
    | none => throw .truncated
    | some c =>
      if c = bracket.closing then
        skip
        ignoreAfter fuel opened
      else
        ignoreKey bracket
        ignoreFrom fuel (bracket :: opened)

/-- Passes over what follows a value inside the open brackets. -/
def ignoreAfter : (fuel : Nat) → List Bracket → Reader Unit
  | _, [] => return
  | 0, _ => throw .truncated
  | fuel + 1, bracket :: opened => do
    match ← peek? with
    | none => throw .truncated
    | some c =>
      if c = ',' then
        skip
        ignoreKey bracket
        ignoreFrom fuel (bracket :: opened)
      else if c = bracket.closing then
        skip
        ignoreAfter fuel opened
      else throw .malformed

end

/-- Passes over a value of any shape. -/
def ignore : Reader Unit := do ignoreFrom (2 * (← budget)) []

end PackedForest.Json
