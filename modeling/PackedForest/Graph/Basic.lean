import PackedForest.Rule
import PackedForest.Span

/-!
# Packed forests as graphs

A node is a symbol over a span of the input. An edge builds its head node out of an ordered
list of tail nodes by one rule application; a node with several edges stands for all of their
derivations at once.

A graph numbers its nodes and edges from zero in the order in which they are added, and lists
on each node the edges that build it. Operations that refuse their argument leave the graph as
it is.
-/

namespace PackedForest

/-- Whether a node is on the frontier of a derivation. -/
inductive Frontier
  | yes
  | no
  | unset
deriving DecidableEq, Repr

/-- A vertex of a forest, with the edges that build it. -/
structure Node where
  id : NodeId
  sym : WordId
  span : Span
  frontier : Frontier
  edges : List EdgeId
  targetWords : Option (List WordId)
deriving DecidableEq, Repr

/-- One rule application. The target sides refer to the tails by their slots. -/
structure Edge where
  id : EdgeId
  head : NodeId
  tails : List NodeId
  probability : Float
  features : Features
  targets : List (List Symbol)
  sourceText : Option String

/-- A node as it is written down. It has no number until a graph gives it one. -/
structure NodeRecord where
  id : Option NodeId
  sym : WordId
  span : Span
  frontier : Frontier
  edges : List EdgeId
  targetWords : Option (List WordId)

/-- An edge as it is written down. It has no number until a graph gives it one. -/
structure EdgeRecord where
  id : Option EdgeId
  head : NodeId
  tails : List NodeId
  probability : Float
  features : Features
  targets : List (List Symbol)
  sourceText : Option String

/-- A forest over the words of a sentence. -/
structure Graph where
  words : List WordId
  nodes : Array Node
  edges : Array Edge

namespace NodeRecord

/-- A node that no graph has numbered. -/
def new (sym : WordId) (span : Span) : NodeRecord := ⟨none, sym, span, .unset, [], none⟩

/-- The node under the number that a graph gives it. -/
def numbered (r : NodeRecord) (id : NodeId) : Node :=
  ⟨id, r.sym, r.span, r.frontier, r.edges, r.targetWords⟩

/-- The number that a graph has given to the node. -/
def number (r : NodeRecord) : Except Fault NodeId :=
  match r.id with
  | some id => .ok id
  | none => .error .nodeNotAdded

end NodeRecord

namespace EdgeRecord

/-- An edge that no graph has numbered. -/
def new (head : NodeId) : EdgeRecord := ⟨none, head, [], 1.0, .empty, [], none⟩

/-- The edge under the number that a graph gives it. -/
def numbered (r : EdgeRecord) (id : EdgeId) : Edge :=
  ⟨id, r.head, r.tails, r.probability, r.features, r.targets, r.sourceText⟩

/-- The number that a graph has given to the edge. -/
def number (r : EdgeRecord) : Except Fault EdgeId :=
  match r.id with
  | some id => .ok id
  | none => .error .edgeNotAdded

end EdgeRecord

/-- The node as it is written down. -/
def Node.record (n : Node) : NodeRecord :=
  ⟨some n.id, n.sym, n.span, n.frontier, n.edges, n.targetWords⟩

/-- The edge as it is written down. -/
def Edge.record (e : Edge) : EdgeRecord :=
  ⟨some e.id, e.head, e.tails, e.probability, e.features, e.targets, e.sourceText⟩

/-- A probability lies between zero and one. -/
def isProbability (x : Float) : Bool := 0.0 ≤ x && x ≤ 1.0

namespace Edge

/-- The probability of the edge. Where probabilities are checked, one out of range is a fault of
whoever built the edge. -/
def checkedProbability (check : Bool) (e : Edge) : Except Fault Float :=
  if check && !isProbability e.probability then .error (.improbableEdge e.id e.probability)
  else .ok e.probability

/-- Equality of edges, up to small differences of probabilities and feature values. -/
def agrees (e f : Edge) : Bool :=
  e.id == f.id && e.head == f.head && e.tails == f.tails &&
    (e.probability - f.probability).abs ≤ 1e-9 && e.features.agrees f.features &&
    e.targets == f.targets && e.sourceText == f.sourceText

end Edge

namespace Graph

def empty : Graph := ⟨[], #[], #[]⟩

instance : Inhabited Graph := ⟨empty⟩

/-- The node with a number. -/
def node (g : Graph) (id : NodeId) : Except Fault Node :=
  match g.nodes[id]? with
  | some n => .ok n
  | none => .error (.nodeOutOfRange id g.nodes.size)

/-- The edge with a number. -/
def edge (g : Graph) (id : EdgeId) : Except Fault Edge :=
  match g.edges[id]? with
  | some e => .ok e
  | none => .error (.edgeOutOfRange id g.edges.size)

/-- The edges that build a node, in the order of its list. -/
def edgesOf (g : Graph) (id : NodeId) : List Edge :=
  match g.nodes[id]? with
  | some n => n.edges.filterMap (g.edges[·]?)
  | none => []

/-- Adds a node under the next number. -/
def pushNode (g : Graph) (r : NodeRecord) : Graph :=
  { g with nodes := g.nodes.push (r.numbered g.nodes.size) }

/-- Adds an edge under the next number and lists it on its head. -/
def pushEdge (g : Graph) (r : EdgeRecord) : Graph :=
  { g with
    nodes := g.nodes.modify r.head fun n => { n with edges := n.edges ++ [g.edges.size] }
    edges := g.edges.push (r.numbered g.edges.size) }

/-- Adds a node that no graph has numbered. Its edges come later, through `addEdge`. -/
def addNode (g : Graph) (r : NodeRecord) : Except Fault (NodeId × Graph) :=
  match r.id with
  | some id => .error (.nodeAlreadyAdded id)
  | none =>
    if r.edges.isEmpty then .ok (g.nodes.size, g.pushNode r) else .error .newNodeHasEdges

/-- Adds an edge that no graph has numbered, between nodes of the graph. -/
def addEdge (g : Graph) (r : EdgeRecord) : Except Fault (EdgeId × Graph) :=
  match r.id with
  | some id => .error (.edgeAlreadyAdded id)
  | none =>
    match r.tails.find? (g.nodes.size ≤ ·) with
    | some tail => .error (.tailOutOfRange tail)
    | none =>
      if r.head < g.nodes.size then .ok (g.edges.size, g.pushEdge r)
      else .error (.nodeOutOfRange r.head g.nodes.size)

/-- The trivial forest of a sentence: a node for each word. -/
def ofWords (words : List WordId) : Graph :=
  { words.zipIdx.foldl (fun g word => g.pushNode (.new word.1 ⟨word.2, word.2 + 1⟩)) empty with
    words }

/-- Changes a node. Its number and its edges stay. -/
def updateNode (g : Graph) (id : NodeId) (f : Node → Node) : Except Fault Graph :=
  if id < g.nodes.size then
    .ok { g with
      nodes := g.nodes.modify id fun n => { f n with id := n.id, edges := n.edges } }
  else .error (.nodeOutOfRange id g.nodes.size)

/-- The first node with this symbol and span. -/
def find? (g : Graph) (sym : WordId) (span : Span) : Option NodeId :=
  (g.nodes.find? fun n => n.sym == sym && n.span == span).map (·.id)

/-- Equality of graphs, node by node and edge by edge. -/
def agrees (g h : Graph) : Bool :=
  g.words == h.words && g.nodes == h.nodes && g.edges.size == h.edges.size &&
    (g.edges.zip h.edges).all fun pair => pair.1.agrees pair.2

end Graph

end PackedForest
