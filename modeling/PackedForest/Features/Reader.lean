import PackedForest.Decimal.Reader
import PackedForest.Features
import PackedForest.Text.Columns
import PackedForest.Text.Quoted

/-!
# Reading a feature column

A feature column lists pairs of a name and a value, parted by blanks. The last equals sign of
a pair parts its name from its value; a pair without one is parted at its last colon.
-/

namespace PackedForest

inductive FeatureError
  | noValue (pair : List Char)
  | noName (pair : List Char)
  | badValue (pair : List Char) (cause : Decimal.LiteralError)
deriving DecidableEq

def FeatureError.message : FeatureError → String
  | noValue pair => s!"bad feature {Text.quoted pair}: expected name=value"
  | noName pair => s!"bad feature {Text.quoted pair}: empty name"
  | badValue pair cause => s!"bad feature value in {Text.quoted pair}: {cause.message}"

/-- The name and the value of a pair, as they are written. -/
def splitPair? (pair : List Char) : Option (List Char × List Char) :=
  (Text.cutLast? '=' pair).or (Text.cutLast? ':' pair)

/-- Reads one pair. Its name is numbered last, when the pair is known to be good. -/
def readFeature (pair : List Char) : Interning FeatureError (WordId × Float) := do
  match splitPair? pair with
  | none => throw (.noValue pair)
  | some (name, value) =>
    if name.isEmpty then throw (.noName pair)
    match Decimal.read value with
    | .error cause => throw (.badValue pair cause)
    | .ok value =>
      let id ← intern (String.ofList name)
      return (id, value)

/-- Reads a feature column; the last value of a repeated name counts. -/
def readFeatures (column : List Char) : Interning FeatureError Features := do
  let entries ← (Text.words column).mapM readFeature
  return .ofList entries

end PackedForest
