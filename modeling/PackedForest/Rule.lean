import PackedForest.Features
import PackedForest.Labels

/-!
# Synchronous rules

A rule builds its head tuple over a source side and one target side for each factor. The sides
mix words with slots; a slot stands for a gap that a node of the right labels fills, and every
target side arranges the slots of the source side in its own order.

`render` writes a rule in the syntax that rule tables are read in.
-/

namespace PackedForest

/-- An element of a side. -/
inductive Symbol
  | word (id : Nat)
  | slot (index : Nat)
deriving DecidableEq, Repr

/-- The number of a slot as it stands among word numbers, which have 32 bits. -/
def slotId (slot : Nat) : WordId := -1 - Int.bmod slot 0x100000000

/-- The slot that a number stands for, if it stands for one. -/
def slotOf? (id : WordId) : Option Nat := if id < 0 then some (-1 - id).toNat else none

namespace Symbol

def ofId (id : WordId) : Symbol :=
  match slotOf? id with
  | some index => .slot index
  | none => .word id.toNat

def toId : Symbol → WordId
  | .word id => id
  | .slot index => slotId index

end Symbol

/-- A rule of a rule table. `slots` gives the labels of each slot, `sourceText` the source
column it was read from. -/
structure Rule where
  source : List Symbol
  targets : List (List Symbol)
  head : Labels
  slots : List Labels
  features : Features
  sourceText : String

namespace Rule

/-- The rule that passes an unknown word through to every factor. -/
def passThrough (word : WordId) (head : Labels) : Rule where
  source := [.ofId word]
  targets := List.replicate head.targets.length [.ofId word]
  head := head
  slots := []
  features := .empty
  sourceText := ""

/-- That rule, unless it has too many target sides. A side takes 24 bytes, its symbols apart. -/
def tryPassThrough (word : WordId) (head : Labels) : Except Fault Rule := do
  reserve 24 head.targets.length
  return passThrough word head

/-- Whether the source side is a single slot. -/
def isUnary (r : Rule) : Bool :=
  match r.source with
  | [.slot _] => true
  | _ => false

/-- Equality of rules, up to the tolerance of feature values. -/
def agrees (r s : Rule) : Bool :=
  r.source == s.source && r.targets == s.targets && r.head == s.head && r.slots == s.slots &&
    r.features.agrees s.features && r.sourceText == s.sourceText

/-- An element of a list of the rule, which a side refers to by its index. -/
def nth (as : List α) (index : Nat) : Except Fault α :=
  match as[index]? with
  | some a => .ok a
  | none => .error (.indexOutOfRange index as.length)

/-- A symbol of the side with the given factor, the source side being factor zero. -/
def renderSymbol (v : Vocabulary) (r : Rule) (factor : Nat) : Symbol → Except Fault String
  | .slot slot => do
    let labels ← nth r.slots slot
    let name ← v.symbol (← nth labels.toList factor)
    return s!"x{slot}:{name}"
  | .word id => do
    let name ← v.symbol id
    return s!"\"{name}\""

/-- A side with its head label. -/
def renderSide (v : Vocabulary) (r : Rule) (factor : Nat) (side : List Symbol) :
    Except Fault String := do
  let symbols ← side.mapM (r.renderSymbol v factor)
  let head ← v.symbol (← nth r.head.toList factor)
  return String.join (symbols.map (· ++ " ")) ++ "@ " ++ head

/-- The rule as a line of a rule table. -/
def render (v : Vocabulary) (r : Rule) : Except Fault String := do
  let source ← r.renderSide v 0 r.source
  let targets ← r.targets.zipIdx.mapM fun side => r.renderSide v (side.2 + 1) side.1
  let features ← r.features.entries.mapM fun entry => do
    let name ← v.symbol entry.1
    return s!" {name}={Decimal.plainText entry.2}"
  return source ++ " ||| " ++ " |COL| ".intercalate targets ++ " |||" ++ String.join features

end Rule

end PackedForest
