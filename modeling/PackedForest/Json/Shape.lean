import PackedForest.Json.Ignored

/-!
# Values of a known shape

Readers for the shapes that values are given: integers in a range, numbers, strings, values that
may be absent, arrays, pairs, objects, records and names. A value of another shape is refused
as soon as it is seen, but a number or a string that is malformed in itself is refused as that.
-/

namespace PackedForest.Json

/-- Refuses the value that comes next as one of another shape, or because it is no value. -/
def mismatch : Reader α := do
  match ← next? with
  | none => throw .truncated
  | some 'n' => expect ['n', 'u', 'l', 'l']
  | some 't' => expect ['t', 'r', 'u', 'e']
  | some 'f' => expect ['f', 'a', 'l', 's', 'e']
  | some '"' => do
    skip
    let _ ← stringBody
  | some '[' | some '\x7b' => pure ()
  | some c =>
    if c = '-' || c.isDigit then
      let _ ← numeral
    else throw .malformed
  throw .mismatched

/-- An integer between the two bounds. -/
def intBetween (low high : Int) : Reader Int := do
  match ← peek? with
  | none => throw .truncated
  | some c =>
    if c = '-' || c.isDigit then
      match ← numeral with
      | .int value => if low ≤ value ∧ value ≤ high then return value else throw .mismatched
      | .float _ => throw .mismatched
    else mismatch

/-- A natural number below the bound. -/
def natBelow (bound : Nat) : Reader Nat := return (← intBetween 0 (bound - 1)).toNat

/-- A number of any kind. -/
def float : Reader Float := do
  match ← peek? with
  | none => throw .truncated
  | some c =>
    if c = '-' || c.isDigit then
      match ← numeral with
      | .int value => return .ofInt value
      | .float value => return value
    else mismatch

/-- A string. -/
def text : Reader (List Char) := do
  match ← peek? with
  | none => throw .truncated
  | some '"' => do
    skip
    stringBody
  | some _ => mismatch

/-- A value, or none for `null`. -/
def nullable (reader : Reader α) : Reader (Option α) := do
  match ← peek? with
  | some 'n' => do
    expect ['n', 'u', 'l', 'l']
    return none
  | _ => return some (← reader)

/-- Whether another item of an array follows, the comma before it taken. -/
def moreItems (first : Bool) : Reader Bool := do
  match ← peek? with
  | none => throw .truncated
  | some ']' => return false
  | some c =>
    if first then return true
    if c ≠ ',' then throw .malformed
    skip
    match ← peek? with
    | none => throw .truncated
    | some ']' => throw .malformed
    | some _ => return true

/-- The bracket that ends an array or an object all of whose items have been read. -/
def close (bracket : Bracket) : Reader Unit := do
  match ← peek? with
  | none => throw .truncated
  | some c => if c = bracket.closing then skip else throw .malformed

/-- Items of an array up to its end. -/
def itemsFrom (item : Reader α) : (fuel : Nat) → (first : Bool) → Reader (List α)
  | 0, _ => throw .truncated
  | fuel + 1, first => do
    if ← moreItems first then
      let a ← item
      return a :: (← itemsFrom item fuel false)
    else return []

/-- An array of any length. -/
def list (item : Reader α) : Reader (List α) := do
  match ← peek? with
  | none => throw .truncated
  | some '[' => do
    skip
    let items ← itemsFrom item (← budget) true
    close .square
    return items
  | some _ => mismatch

/-- An item of an array that has to be there. -/
def element (first : Bool) (item : Reader α) : Reader α := do
  if ← moreItems first then item else throw .mismatched

/-- A pair, which is an array of two. -/
def pair (left : Reader α) (right : Reader β) : Reader (α × β) := do
  match ← peek? with
  | none => throw .truncated
  | some '[' => do
    skip
    let a ← element true left
    let b ← element false right
    close .square
    return (a, b)
  | some _ => mismatch

/-- The colon between a key and its value. -/
def colon : Reader Unit := do
  match ← peek? with
  | none => throw .truncated
  | some ':' => skip
  | some _ => throw .malformed

/-- Whether another key of an object follows, the comma before it taken. The key is a string. -/
def moreKeys (first : Bool) : Reader Bool := do
  match ← peek? with
  | none => throw .truncated
  | some '\x7d' => return false
  | some c =>
    if !first then
      if c ≠ ',' then throw .malformed
      skip
    match ← peek? with
    | none => throw .truncated
    | some '"' => return true
    | some _ => throw .malformed

/-- The entries of an object up to its end. `entry` reads a key, from its opening quote, and its
value. -/
def entriesFrom (entry : σ → Reader σ) : (fuel : Nat) → (first : Bool) → σ → Reader σ
  | 0, _, _ => throw .truncated
  | fuel + 1, first, s => do
    if ← moreKeys first then
      let s ← entry s
      entriesFrom entry fuel false s
    else return s

/-- An object, each entry of which changes a state. -/
def entries (entry : σ → Reader σ) (start : σ) : Reader σ := do
  match ← peek? with
  | none => throw .truncated
  | some '\x7b' => do
    skip
    let s ← entriesFrom entry (← budget) true start
    close .curly
    return s
  | some _ => mismatch

/-- A key that is an integer between the two bounds, from its opening quote. -/
def intKey (low high : Int) : Reader Int := do
  skip
  if !(← next?).any (fun c => c = '-' || c.isDigit) then throw .malformed
  let key ← intBetween low high
  if (← next?) ≠ some '"' then throw .malformed
  skip
  return key

/-- The value of a field that may be given once. -/
def field (given : Option α) (value : Reader α) : Reader (Option α) := do
  if given.isSome then throw .mismatched
  colon
  return some (← value)

/-- The value of a field that is passed over. -/
def ignoreField : Reader Unit := do
  colon
  ignore

/-- The value of a field that has to be given. -/
def given : Option α → Reader α
  | some a => return a
  | none => throw .mismatched

/-- A record: an object whose fields are read one by one, or an array of the fields in order.
`start` holds the fields before any is read, and `finish` asks for those that have to be there. -/
def record (fieldOf : σ → String → Reader σ) (start : σ) (finish : σ → Reader α)
    (inOrder : Reader α) : Reader α := do
  match ← peek? with
  | none => throw .truncated
  | some '\x7b' => do
    skip
    let fields ← entriesFrom (fun s => do
      skip
      let name ← stringBody
      fieldOf s (String.ofList name)) (← budget) true start
    let a ← finish fields
    close .curly
    return a
  | some '[' => do
    skip
    let a ← inOrder
    close .square
    return a
  | some _ => mismatch

/-- One of several names, as a string, or as the only key of an object whose value is `null`. -/
def oneOf (valueOf? : String → Option α) : Reader α := do
  let named : Reader α := do
    match valueOf? (String.ofList (← text)) with
    | some a => return a
    | none => throw .mismatched
  match ← peek? with
  | none => throw .truncated
  | some '"' => named
  | some '\x7b' => do
    skip
    let a ← named
    colon
    match ← peek? with
    | some 'n' => expect ['n', 'u', 'l', 'l']
    | _ => mismatch
    close .curly
    return a
  | some _ => throw .malformed

end PackedForest.Json
