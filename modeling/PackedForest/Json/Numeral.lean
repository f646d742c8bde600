import PackedForest.Json.Reader

/-!
# Numbers in JSON

A number is kept as an integer as long as it is written as one and fits into 64 bits, else it is
a double. A double is put together from at most 64 bits of its digits and a power of ten, in
one multiplication or division where the power is a double itself.
-/

namespace PackedForest.Json

/-- A number as it is written: with neither point nor exponent, or with one of them. A minus
before zero, and an integer of more than 64 bits, make it the second kind. -/
inductive Numeral
  | int (value : Int)
  | float (value : Float)

/-- The value of a digit. -/
def digitValue (c : Char) : Nat := c.toNat - 48

/-- Takes the digits that come next. -/
def digits : Reader (List Char) := do
  let found := (← get).takeWhile Char.isDigit
  modify (·.drop found.length)
  return found

/-- Takes digits into the significand as long as it keeps to 64 bits, and says how many. -/
def significandDigits (significand : Nat) : Reader (Nat × Nat) := do
  let (significand, count) := accumulate significand 0 (← get)
  modify (·.drop count)
  return (significand, count)
where
  accumulate (significand count : Nat) : List Char → Nat × Nat
    | [] => (significand, count)
    | c :: cs =>
      if c.isDigit && 10 * significand + digitValue c < 0x10000000000000000 then
        accumulate (10 * significand + digitValue c) (count + 1) cs
      else (significand, count)

/-- A power of ten that a double holds. -/
def powerOfTen (exponent : Nat) : Float := Float.ofScientific 1 false exponent

/-- Scales a number by a power of ten, one division after another for small powers. A number
beyond the range of doubles is refused. -/
def scale (x : Float) (exponent : Int) : Except Flaw Float :=
  if exponent.natAbs ≤ 308 then
    if 0 ≤ exponent then
      let scaled := x * powerOfTen exponent.natAbs
      if scaled.isInf then .error .malformed else .ok scaled
    else .ok (x / powerOfTen exponent.natAbs)
  else if x == 0.0 then .ok x
  else if 0 ≤ exponent then .error .malformed
  else scale (x / powerOfTen 308) (exponent + 308)
termination_by exponent.natAbs

/-- The number with the given sign, significand and exponent. -/
def floatOf (negative : Bool) (significand : Nat) (exponent : Int) : Reader Numeral := do
  match scale (Float.ofNat significand) exponent with
  | .ok x => return .float (if negative then -x else x)
  | .error flaw => throw flaw

/-- The value of some digits. -/
def valueOf (digits : List Char) : Nat := digits.foldl (fun n c => 10 * n + digitValue c) 0

/-- The exponent after its letter. One of more than 31 bits makes the number zero, unless it is
refused as too great. -/
def exponentPart (negative : Bool) (significand : Nat) (shift : Int) : Reader Numeral := do
  skip
  let sign ← next?
  if sign = some '+' || sign = some '-' then skip
  match ← next? with
  | none => throw .truncated
  | some c =>
    if !c.isDigit then throw .malformed
    let power := valueOf (← digits)
    if power < 0x80000000 then
      floatOf negative significand (shift + if sign = some '-' then -(power : Int) else power)
    else if significand ≠ 0 && sign ≠ some '-' then throw .malformed
    else return .float (if negative then -0.0 else 0.0)

/-- What follows the digits of a number: an exponent or nothing. -/
def afterDigits (negative : Bool) (significand : Nat) (shift : Int) : Reader Numeral := do
  match ← next? with
  | some 'e' | some 'E' => exponentPart negative significand shift
  | _ => floatOf negative significand shift

/-- The digits after the point. Those that the significand has no room for do not count. -/
def fractionPart (negative : Bool) (significand : Nat) (shift : Int) : Reader Numeral := do
  skip
  let (significand, count) ← significandDigits significand
  let ignored ← digits
  if count = 0 && ignored.isEmpty then
    throw (if (← next?).isSome then .malformed else .truncated)
  afterDigits negative significand (shift - count)

/-- A number after its sign. -/
def unsigned (negative : Bool) : Reader Numeral := do
  let first ← take .truncated
  if !first.isDigit then throw .malformed
  if first = '0' && (← next?).any Char.isDigit then throw .malformed
  let (significand, _) ← significandDigits (digitValue first)
  let ignored ← digits
  match ← next? with
  | some '.' => fractionPart negative significand ignored.length
  | some 'e' | some 'E' => exponentPart negative significand ignored.length
  | _ =>
    if !ignored.isEmpty then floatOf negative significand ignored.length
    else if negative then
      if significand = 0 || 0x8000000000000000 < significand then
        return .float (-(Float.ofNat significand))
      else return .int (-significand)
    else return .int significand

/-- A number, at its first character. -/
def numeral : Reader Numeral := do
  if (← next?) = some '-' then
    skip
    unsigned true
  else unsigned false

end PackedForest.Json
