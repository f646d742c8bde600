import PackedForest.Parser.Match
import PackedForest.Reachability

/-!
# Building the forest of a sentence

Spans are filled from narrow to wide, those of one width from left to right. On each span all
matches of all grammars are applied first. A single word without a match is passed through
under the label for unknown words, unless such words are deleted. Unary rules come last.

Unary rules are applied by a worklist of the nodes that are new on the span, which grows while
it is worked through. Each rule is used at most once on a span, and never where its head
already takes part in its tail, so the forest has no cycles.

`parse` is the forest itself. `build` is what callers run. It fails where the number of target
factors is so large that a tuple of a label of the settings, or the rule for an unknown word,
cannot be made.
-/

namespace PackedForest

/-- Grammars and the settings they are used with. -/
structure Parser where
  grammars : List Grammar
  factors : Nat
  rootLabel : WordId
  unknownLabel : WordId
  deleteUnknown : Bool
  keepSourceText : Bool

/-- The use of a rule with some tails, and whether the edge keeps the source text. -/
structure Application where
  rule : Rule
  tails : List NodeId
  keepSourceText : Bool

/-- The edge of the application under its head node. -/
def Application.edge (a : Application) (head : NodeId) : EdgeRecord where
  id := none
  head := head
  tails := a.tails
  probability := a.rule.features.probability
  features := a.rule.features
  targets := a.rule.targets
  sourceText := if a.keepSourceText then some a.rule.sourceText else none

/-- The forest while one span is filled, with the label tuples of the nodes that are new on the
span, in the order in which they were added. -/
structure SpanProgress where
  forest : Forest
  fresh : List Labels

/-- Adds the edge of an application over a span, and its head node if there is none yet. -/
def SpanProgress.apply (span : Span) (p : SpanProgress) (a : Application) : SpanProgress :=
  let (head, isNew, forest) := p.forest.findOrAdd span a.rule.head
  { forest := { forest with graph := forest.graph.pushEdge (a.edge head) }
    fresh := if isNew then p.fresh ++ [a.rule.head] else p.fresh }

/-- The state of the worklist of unary rules on a span: the rules that were tried, by grammar
and place, and a link from the head of every unary edge on the span to its tail. -/
structure UnaryProgress where
  span : SpanProgress
  tried : List (Nat × Nat)
  links : List (NodeId × NodeId)

namespace UnaryProgress

/-- Applies a unary rule to its tail, unless the rule was tried before on the span, its tail is
missing, or its head leads to its tail already. -/
def apply (span : Span) (place : Nat) (g : Grammar) (p : UnaryProgress) (step : UnaryStep) :
    UnaryProgress :=
  if (place, step.rule) ∈ p.tried then p
  else
    let p := { p with tried := (place, step.rule) :: p.tried }
    match g.unaries[step.rule]?, p.span.forest.chart.find? span step.tail with
    | some rule, some tail =>
      let head? := p.span.forest.chart.find? span rule.head
      if head?.any (Reachability.reaches p.links tail) then p
      else
        let after := p.span.apply span ⟨rule, [tail], g.keepSourceText⟩
        let head := head?.getD p.span.forest.graph.nodes.size
        { p with span := after, links := (head, tail) :: p.links }
    | _, _ => p

/-- Applies the closures of one label tuple, grammar by grammar. -/
def applyClosures (span : Span) (grammars : List Grammar) (p : UnaryProgress) (labels : Labels) :
    UnaryProgress :=
  grammars.zipIdx.foldl
    (fun p (g, place) => (g.unaries.closure labels).foldl (apply span place g) p) p

/-- Works through the new nodes from the given place on, those added meanwhile included. -/
def run (span : Span) (grammars : List Grammar) :
    (fuel place : Nat) → UnaryProgress → UnaryProgress
  | 0, _, p => p
  | fuel + 1, place, p =>
    match p.span.fresh[place]? with
    | none => p
    | some labels => run span grammars fuel (place + 1) (p.applyClosures span grammars labels)

end UnaryProgress

/-- Applies the unary rules to the new nodes of a span. Each rule adds at most one node, which
bounds the length of the worklist. -/
def SpanProgress.applyUnaries (span : Span) (grammars : List Grammar) (p : SpanProgress) :
    SpanProgress :=
  let fuel := p.fresh.length + (grammars.flatMap (·.unaries)).length
  (UnaryProgress.run span grammars fuel 0 ⟨p, [], []⟩).span

namespace Parser

/-- The label tuple of the node that stands for the whole sentence. -/
def rootLabels (p : Parser) : Labels := .uniform p.rootLabel p.factors

/-- The label tuple of an unknown word. -/
def unknownLabels (p : Parser) : Labels := .uniform p.unknownLabel p.factors

/-- The rule for a word that no rule matches. -/
def unknownRule (p : Parser) (word : WordId) : Rule := .passThrough word p.unknownLabels

/-- `rootLabels`, if they can be made. -/
def tryRootLabels (p : Parser) : Except Fault Labels := Labels.tryUniform p.rootLabel p.factors

/-- `unknownLabels`, if they can be made. -/
def tryUnknownLabels (p : Parser) : Except Fault Labels :=
  Labels.tryUniform p.unknownLabel p.factors

/-- `unknownRule`, if it can be made. -/
def tryUnknownRule (p : Parser) (word : WordId) : Except Fault Rule := do
  Rule.tryPassThrough word (← p.tryUnknownLabels)

/-- The matches of all grammars over the span of some words. -/
def matching (p : Parser) (chart : Chart) (start : Nat) (words : List WordId) :
    List Application :=
  p.grammars.flatMap fun g =>
    (g.matching chart start words).map fun m => ⟨m.rule, m.tails, g.keepSourceText⟩

/-- The applications over the span of some words, unary rules apart. -/
def applications (p : Parser) (chart : Chart) (start : Nat) (words : List WordId) :
    List Application :=
  match p.matching chart start words, words with
  | [], [word] => if p.deleteUnknown then [] else [⟨p.unknownRule word, [], p.keepSourceText⟩]
  | found, _ => found

/-- Fills one span of a sentence. -/
def fillSpan (p : Parser) (sentence : List WordId) (f : Forest) (span : Span) : Forest :=
  let words := (sentence.drop span.start).take (span.stop - span.start)
  let found := p.applications f.chart span.start words
  ((found.foldl (SpanProgress.apply span) ⟨f, []⟩).applyUnaries span p.grammars).forest

/-- The forest of every derivation that the grammars allow. -/
def parse (p : Parser) (sentence : List WordId) : Forest :=
  (Span.upTo sentence.length).foldl (p.fillSpan sentence)
    ⟨{ Graph.empty with words := sentence }, .empty⟩

/-- Whether the rule for the word can be made, where the words are one word that is passed
through. -/
def checkUnknown (p : Parser) (chart : Chart) (start : Nat) : List WordId → Except Fault Unit
  | [word] =>
    if p.deleteUnknown || !(p.matching chart start [word]).isEmpty then .ok ()
    else discard (p.tryUnknownRule word)
  | _ => .ok ()

/-- Fills one span of a sentence, if the rule that a word of it is passed through by can be
made. -/
def buildSpan (p : Parser) (sentence : List WordId) (f : Forest) (span : Span) :
    Except Fault Forest := do
  p.checkUnknown f.chart span.start ((sentence.drop span.start).take (span.stop - span.start))
  return p.fillSpan sentence f span

/-- The node that stands for the whole sentence, if there is one. -/
def root? (p : Parser) (f : Forest) : Option NodeId :=
  f.chart.find? ⟨0, f.graph.words.length⟩ p.rootLabels

/-- `root?`, if the tuple to look for can be made. -/
def tryRoot (p : Parser) (f : Forest) : Except Fault (Option NodeId) := do
  return f.chart.find? ⟨0, f.graph.words.length⟩ (← p.tryRootLabels)

/-- The forest of a sentence, if the settings leave room for it. At the end the node that stands
for the whole sentence is looked for, unless there are no words. -/
def build (p : Parser) (sentence : List WordId) : Except Fault Forest := do
  let f ← (Span.upTo sentence.length).foldlM (p.buildSpan sentence)
    ⟨{ Graph.empty with words := sentence }, .empty⟩
  unless sentence.isEmpty do discard (p.tryRoot f)
  return f

end Parser

end PackedForest
