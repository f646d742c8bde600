import PackedForest.CommandLine.Options
import PackedForest.Count
import PackedForest.Derivation.Tree
import PackedForest.Graph.Display
import PackedForest.Graph.Json
import PackedForest.Parser.Settings

/-!
# A session of the command line

A session holds the parser that the options ask for. It answers each sentence with the forest,
the number of derivations of the whole sentence, and some of them as trees. Words stay
numbered from one sentence to the next.
-/

namespace PackedForest.CommandLine

/-- The parser of a run, its options and its vocabulary. -/
structure Session where
  options : Options
  parser : Parser
  vocabulary : Vocabulary

/-- Why a run cannot start. -/
inductive StartError
  | load (cause : LoadError)
  | limits (cause : LimitMismatch)

def StartError.message : StartError → String
  | load cause => cause.message
  | limits cause => cause.message

/-- The reason given for a file that does not exist. -/
def noSuchFile : String := "No such file or directory (os error 2)"

/-- A finished run: its exit status and what it has written. -/
structure Outcome where
  status : Nat
  output : String
  errors : String

/-- Numbers a label of the options, or keeps the one that is set. -/
def labelOr (label : WordId) : Option String → StateM Vocabulary WordId
  | some name => internLabel name
  | none => return label

/-- Loads the files and makes the settings that the options ask for. -/
def openParser (o : Options) (files : List (String × Except String (List UInt8))) :
    Interning StartError Parser := do
  let p ← (Parser.ofFiles o.factors files).adapt .load
  let p ←
    match o.spanLimits.map p.setSpanLimits with
    | none => pure p
    | some (.ok p) => pure p
    | some (.error e) => throw (.limits e)
  let p := { p with deleteUnknown := o.deleteUnknown }.setKeepSourceText o.keepSourceText
  let rootLabel ← labelOr p.rootLabel o.root
  let unknownLabel ← labelOr p.unknownLabel o.unknown
  return { p with rootLabel, unknownLabel }

/-- Starts a run: it is over at once, or there is a session. Each file comes with its bytes, or
with the reason why it could not be opened. -/
def start (program : String) (arguments : List String)
    (files : List (String × Except String (List UInt8))) : Outcome ⊕ Session :=
  match readArguments {} arguments with
  | .error e => .inl ⟨255, "", e.report program ++ "\n"⟩
  | .ok .help => .inl ⟨0, usage program ++ "\n", ""⟩
  | .ok (.run o) =>
    match (openParser o files).run .empty with
    | (.error e, _) => .inl ⟨1, "", s!"Error: {Text.quoted e.message.toList}\n"⟩
    | (.ok p, v) => .inr ⟨o, p, v⟩

/-- The prompt before each sentence. -/
def prompt : String := "> "

/-- A derivation as a tree, with its probability and the sum of its features. -/
def derivationLine (v : Vocabulary) (words : List WordId) (d : Derivation) :
    Except Fault String := do
  let tree ← d.toTree v words
  let features ← d.fragment.features.render v
  return s!"{tree.render}\tp={Decimal.plainText d.probability} {features}\n"

/-- The number of derivations of the whole sentence, and up to `trees` of them. -/
def derivationReport (v : Vocabulary) (g : Graph) (root : NodeId) (trees : Nat) :
    Except Fault String := do
  let count ← g.derivationCount root
  let derivations ← g.derivations true root trees
  let lines ← derivations.mapM (derivationLine v g.words)
  let ending := if count = 1 then "" else "s"
  return s!"{count} derivation{ending}\n" ++ String.join lines

/-- The report on the forest of a sentence. -/
def report (s : Session) (f : Forest) : Except Fault String := do
  let forest ←
    if s.options.json then pure (String.ofList f.graph.toJson ++ "\n")
    else f.graph.render s.vocabulary
  let derivations ←
    match ← s.parser.tryRoot f with
    | some root => derivationReport s.vocabulary f.graph root s.options.trees
    | none => pure "no derivation covers the sentence\n"
  return forest ++ derivations

/-- Answers a sentence. -/
def Session.answer (s : Session) (sentence : String) : Except Fault String × Session :=
  let (words, v) := (internWords sentence).run s.vocabulary
  let s := { s with vocabulary := v }
  (do report s (← s.parser.build words), s)

/-- What a session writes when it is given some lines and then the end of the input. A fault ends
the run. -/
def Session.transcript : Session → List String → Outcome
  | _, [] => ⟨0, prompt, ""⟩
  | s, line :: lines =>
    match s.answer line with
    | (.ok answer, s) =>
      let rest := Session.transcript s lines
      { rest with output := prompt ++ answer ++ rest.output }
    | (.error fault, _) => ⟨101, prompt, fault.message ++ "\n"⟩

/-- A whole run, from its arguments, its files and the lines of its input. -/
def run (program : String) (arguments : List String)
    (files : List (String × Except String (List UInt8))) (input : List String) : Outcome :=
  match start program arguments files with
  | .inl outcome => outcome
  | .inr session => session.transcript input

end PackedForest.CommandLine
