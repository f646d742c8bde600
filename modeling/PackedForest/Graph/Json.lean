import PackedForest.Graph.Basic
import PackedForest.Json.Shape
import PackedForest.Json.Writer

/-!
# Forests as JSON

A forest is written as an object of its words, nodes and edges, each with all its fields. It is
read as a record, with the numbers of its nodes and edges as they are given; whether they fit
together is another matter.
-/

namespace PackedForest

/-! ### Writing -/

namespace Features

/-- An object from names to values, in increasing order of the names. -/
def toJson (f : Features) : List Char :=
  Json.enclosed '\x7b' '\x7d'
    (f.entries.map fun entry => Json.string (Json.int entry.1) ++ ':' :: Json.number entry.2)

end Features

def Span.toJson (s : Span) : List Char := Json.array [Json.nat s.start, Json.nat s.stop]

def Frontier.name : Frontier → String
  | yes => "Y"
  | no => "N"
  | unset => "U"

def Frontier.ofName? : String → Option Frontier
  | "Y" => some .yes
  | "N" => some .no
  | "U" => some .unset
  | _ => none

def Node.toJson (n : Node) : List Char :=
  Json.object [
    ("id", Json.nat n.id),
    ("sym", Json.int n.sym),
    ("span", n.span.toJson),
    ("frontier", Json.string n.frontier.name.toList),
    ("edges", Json.array (n.edges.map Json.nat)),
    ("trg_words", Json.optional (fun words => Json.array (words.map Json.int)) n.targetWords)]

def Edge.toJson (e : Edge) : List Char :=
  Json.object [
    ("id", Json.nat e.id),
    ("head", Json.nat e.head),
    ("tails", Json.array (e.tails.map Json.nat)),
    ("prob", Json.number e.probability),
    ("features", e.features.toJson),
    ("trg_words", Json.array (e.targets.map fun side => Json.array (side.map (Json.int ·.toId)))),
    ("src_str", Json.optional (Json.string ·.toList) e.sourceText)]

def Graph.toJson (g : Graph) : List Char :=
  Json.object [
    ("words", Json.array (g.words.map Json.int)),
    ("nodes", Json.array (g.nodes.toList.map Node.toJson)),
    ("edges", Json.array (g.edges.toList.map Edge.toJson))]

/-! ### Reading -/

open Json (Reader)

/-- A word number has 32 bits and a sign. -/
def readWordId : Reader WordId := Json.intBetween (-0x80000000) 0x7fffffff

/-- The number of a node or an edge has 32 bits. -/
def readId : Reader Nat := Json.natBelow 0x100000000

/-- A position in the input has 64 bits. -/
def readPosition : Reader Nat := Json.natBelow 0x10000000000000000

def Features.ofJson : Reader Features :=
  Json.entries (fun f => do
    let name ← Json.intKey (-0x80000000) 0x7fffffff
    Json.colon
    return f.insert name (← Json.float)) .empty

def Span.ofJson : Reader Span := do
  let (start, stop) ← Json.pair readPosition readPosition
  return ⟨start, stop⟩

def Frontier.ofJson : Reader Frontier := Json.oneOf Frontier.ofName?

def readSides : Reader (List (List Symbol)) :=
  Json.list (return (← Json.list readWordId).map Symbol.ofId)

def readText : Reader String := return String.ofList (← Json.text)

/-- The fields of a node, as far as they are read. -/
structure NodeFields where
  id : Option (Option NodeId) := none
  sym : Option WordId := none
  span : Option Span := none
  frontier : Option Frontier := none
  edges : Option (List EdgeId) := none
  targetWords : Option (Option (List WordId)) := none

namespace NodeRecord

def field (f : NodeFields) : String → Reader NodeFields
  | "id" => return { f with id := ← Json.field f.id (Json.nullable readId) }
  | "sym" => return { f with sym := ← Json.field f.sym readWordId }
  | "span" => return { f with span := ← Json.field f.span Span.ofJson }
  | "frontier" => return { f with frontier := ← Json.field f.frontier Frontier.ofJson }
  | "edges" => return { f with edges := ← Json.field f.edges (Json.list readId) }
  | "trg_words" => return { f with
      targetWords := ← Json.field f.targetWords (Json.nullable (Json.list readWordId)) }
  | _ => do
    Json.ignoreField
    return f

def ofFields (f : NodeFields) : Reader NodeRecord :=
  return {
    id := f.id.join
    sym := ← Json.given f.sym
    span := ← Json.given f.span
    frontier := ← Json.given f.frontier
    edges := ← Json.given f.edges
    targetWords := f.targetWords.join }

def inOrder : Reader NodeRecord :=
  return {
    id := ← Json.element true (Json.nullable readId)
    sym := ← Json.element false readWordId
    span := ← Json.element false Span.ofJson
    frontier := ← Json.element false Frontier.ofJson
    edges := ← Json.element false (Json.list readId)
    targetWords := ← Json.element false (Json.nullable (Json.list readWordId)) }

def ofJson : Reader NodeRecord := Json.record field {} ofFields inOrder

end NodeRecord

/-- The fields of an edge, as far as they are read. -/
structure EdgeFields where
  id : Option (Option EdgeId) := none
  head : Option NodeId := none
  tails : Option (List NodeId) := none
  probability : Option Float := none
  features : Option Features := none
  targets : Option (List (List Symbol)) := none
  sourceText : Option (Option String) := none

namespace EdgeRecord

def field (f : EdgeFields) : String → Reader EdgeFields
  | "id" => return { f with id := ← Json.field f.id (Json.nullable readId) }
  | "head" => return { f with head := ← Json.field f.head readId }
  | "tails" => return { f with tails := ← Json.field f.tails (Json.list readId) }
  | "prob" => return { f with probability := ← Json.field f.probability Json.float }
  | "features" => return { f with features := ← Json.field f.features Features.ofJson }
  | "trg_words" => return { f with targets := ← Json.field f.targets readSides }
  | "src_str" => return { f with
      sourceText := ← Json.field f.sourceText (Json.nullable readText) }
  | _ => do
    Json.ignoreField
    return f

def ofFields (f : EdgeFields) : Reader EdgeRecord :=
  return {
    id := f.id.join
    head := ← Json.given f.head
    tails := ← Json.given f.tails
    probability := ← Json.given f.probability
    features := ← Json.given f.features
    targets := ← Json.given f.targets
    sourceText := f.sourceText.join }

def inOrder : Reader EdgeRecord :=
  return {
    id := ← Json.element true (Json.nullable readId)
    head := ← Json.element false readId
    tails := ← Json.element false (Json.list readId)
    probability := ← Json.element false Json.float
    features := ← Json.element false Features.ofJson
    targets := ← Json.element false readSides
    sourceText := ← Json.element false (Json.nullable readText) }

def ofJson : Reader EdgeRecord := Json.record field {} ofFields inOrder

end EdgeRecord

/-- A forest as it is written down. -/
structure GraphRecord where
  words : List WordId
  nodes : List NodeRecord
  edges : List EdgeRecord

/-- The fields of a forest, as far as they are read. -/
structure GraphFields where
  words : Option (List WordId) := none
  nodes : Option (List NodeRecord) := none
  edges : Option (List EdgeRecord) := none

namespace GraphRecord

def field (f : GraphFields) : String → Reader GraphFields
  | "words" => return { f with words := ← Json.field f.words (Json.list readWordId) }
  | "nodes" => return { f with nodes := ← Json.field f.nodes (Json.list NodeRecord.ofJson) }
  | "edges" => return { f with edges := ← Json.field f.edges (Json.list EdgeRecord.ofJson) }
  | _ => do
    Json.ignoreField
    return f

def ofFields (f : GraphFields) : Reader GraphRecord :=
  return {
    words := ← Json.given f.words
    nodes := ← Json.given f.nodes
    edges := ← Json.given f.edges }

def inOrder : Reader GraphRecord :=
  return {
    words := ← Json.element true (Json.list readWordId)
    nodes := ← Json.element false (Json.list NodeRecord.ofJson)
    edges := ← Json.element false (Json.list EdgeRecord.ofJson) }

def ofJson : Reader GraphRecord := Json.record field {} ofFields inOrder

end GraphRecord

end PackedForest
