import PackedForest.Text.Printable

/-!
# Quoted text

Messages show a piece of input between double quotes. The quote, the backslash and the
controls that have a short form are written with a backslash; any other character that would
not be seen is written as its code point.
-/

namespace PackedForest.Text

/-- One character as it stands between double quotes. -/
def quoteChar (c : Char) : List Char :=
  match c with
  | '\x00' => ['\\', '0']
  | '\t' => ['\\', 't']
  | '\r' => ['\\', 'r']
  | '\n' => ['\\', 'n']
  | '\\' => ['\\', '\\']
  | '"' => ['\\', '"']
  | c =>
    if isPrintable c then [c]
    else ['\\', 'u', '\x7b'] ++ Nat.toDigits 16 c.toNat ++ ['\x7d']

/-- The text between double quotes. -/
def quoted (cs : List Char) : String :=
  String.ofList ('"' :: cs.flatMap quoteChar ++ ['"'])

end PackedForest.Text
