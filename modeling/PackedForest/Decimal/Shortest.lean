/-!
# The fewest digits that read back

A positive finite binary number stands for an interval of reals, those that round to it. Of
the decimals in that interval the shortest is chosen, and of the shortest the nearest to the
number. The search goes through grids of one, two, … significant digits and tests the two
points of the grid beside the number, in whole numbers throughout.
-/

namespace PackedForest.Decimal

/-- The positive number `significand * 2 ^ exponent`. `narrowBelow` says that the next number
below is half as far as the next one above, as at a power of two. -/
structure Binary where
  significand : Nat
  exponent : Int
  narrowBelow : Bool
deriving DecidableEq

/-- The positive number `digits * 10 ^ exponent`. -/
structure Scientific where
  digits : Nat
  exponent : Int
deriving DecidableEq

namespace Binary

/-- Four times the significand, over the denominator that clears a negative exponent. In these
units a half step is two, and one below a power of two. -/
def scaled (b : Binary) (factor : Nat) : Nat := factor * Nat.pow 2 (b.exponent - 2).toNat

def denominator (b : Binary) : Nat := Nat.pow 2 (2 - b.exponent).toNat

def value (b : Binary) : Nat := b.scaled (4 * b.significand)

def upper (b : Binary) : Nat := b.scaled (4 * b.significand + 2)

def lower (b : Binary) : Nat := b.scaled (4 * b.significand - if b.narrowBelow then 1 else 2)

/-- Whether `num / den` rounds to the number. An end of the interval does so exactly when the
significand is even. -/
def admits (b : Binary) (num den : Nat) : Bool :=
  if b.significand % 2 = 0 then
    b.lower * den ≤ num * b.denominator && num * b.denominator ≤ b.upper * den
  else
    b.lower * den < num * b.denominator && num * b.denominator < b.upper * den

/-- The power of ten that the first digit counts. -/
def magnitude (b : Binary) : Int :=
  if b.denominator ≤ b.value then
    (Nat.toDigits 10 (b.value / b.denominator)).length - 1
  else
    -((Nat.toDigits 10 ((b.denominator - 1) / b.value)).length : Int)

/-- The decimal with last digit at `10 ^ exponent` that rounds to the number and is nearest to
it, if there is one. Two neighbours equally far go to the one with even digits if `tieToEven`,
else to the greater. -/
def onGrid? (b : Binary) (tieToEven : Bool) (exponent : Int) : Option Scientific :=
  let up := Nat.pow 10 exponent.toNat
  let down := Nat.pow 10 (-exponent).toNat
  -- `num / den` is the number counted in units of the grid
  let num := b.value * down
  let den := b.denominator * up
  let below := num / den
  let hitsBelow := b.admits (below * up) down
  let hitsAbove := b.admits ((below + 1) * up) down
  let twice := 2 * (num % den)
  let chooseBelow :=
    hitsBelow &&
      (!hitsAbove || twice < den || (twice == den && tieToEven && below % 2 == 0))
  if chooseBelow then some ⟨below, exponent⟩
  else if hitsAbove then some ⟨below + 1, exponent⟩
  else none

/-- The first hit on the grids of `digits, digits + 1, …` significant digits, `grids` of them. -/
def search (b : Binary) (tieToEven : Bool) : (grids digits : Nat) → Option Scientific
  | 0, _ => none
  | grids + 1, digits =>
    match b.onGrid? tieToEven (b.magnitude + 1 - digits) with
    | some d => some d
    | none => search b tieToEven grids (digits + 1)

/-- Moves zeros at the end of the digits into the exponent, `fuel` of them at most. -/
def dropZeros : (fuel : Nat) → Scientific → Scientific
  | 0, d => d
  | fuel + 1, d =>
    if d.digits % 10 = 0 then dropZeros fuel ⟨d.digits / 10, d.exponent + 1⟩ else d

/-- The shortest decimal that rounds to the number. Seventeen digits always suffice. -/
def shortest (b : Binary) (tieToEven : Bool) : Scientific :=
  dropZeros 17 ((b.search tieToEven 17 1).getD ⟨0, 0⟩)

end Binary

/-- The parts of a positive finite double. -/
def Binary.ofBits (bits : UInt64) : Binary :=
  let fraction := (bits &&& 0xfffffffffffff).toNat
  let biased := ((bits >>> 52) &&& 0x7ff).toNat
  if biased = 0 then ⟨fraction, -1074, false⟩
  else ⟨fraction + 0x10000000000000, biased - 1075, fraction = 0 && 1 < biased⟩

end PackedForest.Decimal
