import PackedForest.Decimal.Shortest

/-!
# How a number is written

`Format` collects the decisions of an output format; `render` does the rest. Two formats are
in use: displays and messages write every number out in full, and JSON switches to an
exponent for very large and very small numbers.
-/

namespace PackedForest.Decimal

/-- The decisions of an output format for numbers. -/
structure Format where
  /-- Whether a number whose first digit counts `10 ^ magnitude` is written without exponent. -/
  positional : Int → Bool
  /-- Whether a whole number keeps a point and a zero. -/
  wholePoint : Bool
  /-- Of two shortest decimals equally near, take the one with even digits, not the greater. -/
  tieToEven : Bool
  notANumber : String
  infinity : String
  negativeInfinity : String

/-- Every digit in place, no exponent, and a point only before a fraction. -/
def Format.plain : Format where
  positional _ := true
  wholePoint := false
  tieToEven := false
  notANumber := "NaN"
  infinity := "inf"
  negativeInfinity := "-inf"

/-- Always a point or an exponent. JSON has no spelling for the numbers that are not finite. -/
def Format.json : Format where
  positional magnitude := -5 ≤ magnitude && magnitude ≤ 15
  wholePoint := true
  tieToEven := true
  notANumber := "null"
  infinity := "null"
  negativeInfinity := "null"

/-- The digits with the point where it belongs, zeros filled in on either side. -/
def positional (wholePoint : Bool) (d : Scientific) : List Char :=
  let digits := Nat.toDigits 10 d.digits
  if 0 ≤ d.exponent then
    digits ++ List.replicate d.exponent.toNat '0' ++ (if wholePoint then ['.', '0'] else [])
  else
    let places := (-d.exponent).toNat
    if places < digits.length then
      digits.take (digits.length - places) ++ '.' :: digits.drop (digits.length - places)
    else
      '0' :: '.' :: List.replicate (places - digits.length) '0' ++ digits

/-- One digit before the point, the rest after it, and a signed exponent. -/
def exponential (d : Scientific) : List Char :=
  let digits := Nat.toDigits 10 d.digits
  let magnitude := d.exponent + digits.length - 1
  digits.take 1 ++ (if digits.length ≤ 1 then [] else '.' :: digits.drop 1) ++
    ['e', if magnitude < 0 then '-' else '+'] ++ Nat.toDigits 10 magnitude.natAbs

/-- The text of a positive decimal. -/
def Format.renderDecimal (f : Format) (d : Scientific) : List Char :=
  if f.positional (d.exponent + (Nat.toDigits 10 d.digits).length - 1) then
    Decimal.positional f.wholePoint d
  else Decimal.exponential d

/-- The text of a number. -/
def Format.render (f : Format) (x : Float) : List Char :=
  if x.isNaN then f.notANumber.toList
  else if x.isInf then (if x < 0 then f.negativeInfinity else f.infinity).toList
  else
    let bits := x.toBits
    let sign := if bits >>> 63 == 1 then ['-'] else []
    let magnitude := bits &&& 0x7fffffffffffffff
    if magnitude == 0 then sign ++ (if f.wholePoint then ['0', '.', '0'] else ['0'])
    else sign ++ f.renderDecimal ((Binary.ofBits magnitude).shortest f.tieToEven)

/-- A number as displays and messages show it. -/
def plainText (x : Float) : String := String.ofList (Format.plain.render x)

end PackedForest.Decimal
