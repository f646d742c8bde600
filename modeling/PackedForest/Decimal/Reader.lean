/-!
# Reading a number

A literal is an optional sign followed by `inf`, `infinity` or `nan` in any case, or by digits
with an optional point and an optional exponent. At least one digit stands beside the point.
Digits are those of ASCII.
-/

namespace PackedForest.Decimal

inductive LiteralError
  | empty
  | invalid
deriving DecidableEq, Repr

def LiteralError.message : LiteralError → String
  | .empty => "cannot parse float from empty string"
  | .invalid => "invalid float literal"

/-- The number that ASCII digits write, after those that wrote `start`. -/
def digitsFrom (start : Nat) (cs : List Char) : Nat :=
  cs.foldl (fun n c => 10 * n + (c.toNat - 48)) start

/-- The double nearest to `significand * 10 ^ exponent`. Powers far outside the range of doubles
are not computed. -/
def nearest (significand : Nat) (exponent : Int) : Float :=
  let magnitude := exponent + (Nat.toDigits 10 significand).length
  if significand = 0 || magnitude < -330 then 0.0
  else if 330 < magnitude then 1.0 / 0.0
  else Float.ofScientific significand (exponent < 0) exponent.natAbs

/-- An exponent with its optional sign, if the text is one. -/
def readExponent? (cs : List Char) : Option Int :=
  match cs with
  | '-' :: digits => (magnitude? digits).map fun n => -(n : Int)
  | '+' :: digits => (magnitude? digits).map fun n => (n : Int)
  | digits => (magnitude? digits).map fun n => (n : Int)
where
  magnitude? (digits : List Char) : Option Nat :=
    if !digits.isEmpty && digits.all Char.isDigit then some (digitsFrom 0 digits) else none

/-- A literal without sign that is written with digits. -/
def readDigits? (cs : List Char) : Option Float :=
  let whole := cs.takeWhile Char.isDigit
  let afterWhole := cs.dropWhile Char.isDigit
  let (fraction, rest) :=
    match afterWhole with
    | '.' :: more => (more.takeWhile Char.isDigit, more.dropWhile Char.isDigit)
    | _ => ([], afterWhole)
  if whole.isEmpty && fraction.isEmpty then none
  else
    let significand := digitsFrom (digitsFrom 0 whole) fraction
    let shift : Int := fraction.length
    match rest with
    | [] => some (nearest significand (-shift))
    | e :: power =>
      if e = 'e' ∨ e = 'E' then
        (readExponent? power).map fun exponent => nearest significand (exponent - shift)
      else none

/-- A literal without sign. -/
def readMagnitude? (cs : List Char) : Option Float :=
  let lower := cs.map Char.toLower
  if lower = ['i', 'n', 'f'] ∨ lower = ['i', 'n', 'f', 'i', 'n', 'i', 't', 'y'] then
    some (1.0 / 0.0)
  else if lower = ['n', 'a', 'n'] then some (0.0 / 0.0)
  else readDigits? cs

/-- The number that a literal stands for. -/
def read (cs : List Char) : Except LiteralError Float :=
  let number? : Option Float :=
    match cs with
    | '-' :: rest => (readMagnitude? rest).map fun x => -x
    | '+' :: rest => readMagnitude? rest
    | _ => readMagnitude? cs
  if cs.isEmpty then .error .empty
  else match number? with
    | some x => .ok x
    | none => .error .invalid

end PackedForest.Decimal
