import PackedForest.Decimal.Format

/-!
# Writing JSON

Texts are written without blanks. A string escapes the quote, the backslash and the controls,
and nothing else; a number always has a point or an exponent unless it is an integer.
-/

namespace PackedForest.Json

/-- Items between brackets of some kind, parted by commas. -/
def enclosed (opening closing : Char) (items : List (List Char)) : List Char :=
  opening :: [','].intercalate items ++ [closing]

def array (items : List (List Char)) : List Char := enclosed '[' ']' items

/-- The escape of a control that has no letter of its own: four digits of base sixteen. -/
def controlEscape (c : Char) : List Char :=
  ['\\', 'u', '0', '0', Nat.digitChar (c.toNat / 16), Nat.digitChar (c.toNat % 16)]

/-- One character as it stands in a string. -/
def escape (c : Char) : List Char :=
  match c with
  | '"' => ['\\', '"']
  | '\\' => ['\\', '\\']
  | '\x08' => ['\\', 'b']
  | '\x0c' => ['\\', 'f']
  | '\n' => ['\\', 'n']
  | '\r' => ['\\', 'r']
  | '\t' => ['\\', 't']
  | c => if c.toNat < 0x20 then controlEscape c else [c]

def string (cs : List Char) : List Char := '"' :: cs.flatMap escape ++ ['"']

def nat (n : Nat) : List Char := Nat.toDigits 10 n

def int (i : Int) : List Char := if i < 0 then '-' :: nat i.natAbs else nat i.toNat

/-- A number of any kind. One that is not finite is written as `null`. -/
def number (x : Float) : List Char := Decimal.Format.json.render x

def null : List Char := ['n', 'u', 'l', 'l']

/-- A value that may be absent. -/
def optional (write : α → List Char) : Option α → List Char
  | some a => write a
  | none => null

/-- An object from its keys and written values, in the given order. -/
def object (fields : List (String × List Char)) : List Char :=
  enclosed '\x7b' '\x7d' (fields.map fun field => string field.1.toList ++ ':' :: field.2)

end PackedForest.Json
