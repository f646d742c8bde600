import PackedForest.Graph.Json

/-!
# Forests from records

A record of a forest is checked before it is taken for one: nodes and edges stand at the places
that their numbers say, a node lists edges that it heads, every edge is listed on its head, the
tails exist, and probabilities are probabilities. The nodes are checked first.
-/

namespace PackedForest

/-- Why a text is no forest: it is no JSON of the right shape, or a node or an edge does not fit
in. -/
inductive GraphError
  | json (flaw : Json.Flaw)
  | nodeNumber (place : NodeId) (id : Option NodeId)
  | listsForeignEdge (node : NodeId) (edge : EdgeId)
  | listsMissingEdge (node : NodeId) (edge : EdgeId)
  | edgeNumber (place : EdgeId) (id : Option EdgeId)
  | missingNode (edge : EdgeId)
  | unlistedEdge (edge : EdgeId)
  | edgeProbability (edge : EdgeId) (probability : Float)

namespace GraphError

/-- An optional number of a node or an edge. -/
def optionalId (kind : String) : Option Nat → String
  | some id => s!"Some({kind}({id}))"
  | none => "None"

/-- The message of an error; there is none for a text of the wrong shape. -/
def message? : GraphError → Option String
  | json _ => none
  | nodeNumber place id => some (s!"node at {place} has id " ++ optionalId "NodeId" id)
  | listsForeignEdge node edge => s!"node {node} lists edge {edge} it does not head"
  | listsMissingEdge node edge => s!"node {node} lists missing edge {edge}"
  | edgeNumber place id => some (s!"edge at {place} has id " ++ optionalId "EdgeId" id)
  | missingNode edge => s!"edge {edge} references a missing node"
  | unlistedEdge edge => s!"edge {edge} is not listed on its head"
  | edgeProbability edge probability =>
    some (s!"edge {edge}: " ++ Fault.invalidProbability probability)

end GraphError

namespace GraphRecord

/-- Checks that a node at some place has that number and lists edges that it heads. -/
def checkNode (edges : Array EdgeRecord) (place : NodeId) (n : NodeRecord) :
    Except GraphError Unit := do
  if n.id ≠ some place then throw (.nodeNumber place n.id)
  for id in n.edges do
    match edges[id]? with
    | some e => if e.head ≠ place then throw (.listsForeignEdge place id)
    | none => throw (.listsMissingEdge place id)

/-- Checks that an edge at some place has that number, joins nodes that exist, is listed on its
head, and has a probability. -/
def checkEdge (nodes : Array NodeRecord) (place : EdgeId) (e : EdgeRecord) :
    Except GraphError Unit := do
  if e.id ≠ some place then throw (.edgeNumber place e.id)
  match nodes[e.head]? with
  | none => throw (.missingNode place)
  | some head =>
    if !e.tails.all (· < nodes.size) then throw (.missingNode place)
    if place ∉ head.edges then throw (.unlistedEdge place)
    if !isProbability e.probability then throw (.edgeProbability place e.probability)

/-- The forest that is written down, if its parts fit together. -/
def toGraph (r : GraphRecord) : Except GraphError Graph := do
  let nodes := r.nodes.toArray
  let edges := r.edges.toArray
  for (n, place) in r.nodes.zipIdx do checkNode edges place n
  for (e, place) in r.edges.zipIdx do checkEdge nodes place e
  return {
    words := r.words
    nodes := nodes.mapIdx fun place n => n.numbered place
    edges := edges.mapIdx fun place e => e.numbered place }

end GraphRecord

/-- Reads a forest. -/
def Graph.ofJson (text : List Char) : Except GraphError Graph :=
  match Json.parse GraphRecord.ofJson text with
  | .ok record => record.toGraph
  | .error flaw => .error (.json flaw)

end PackedForest
