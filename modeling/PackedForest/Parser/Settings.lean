import PackedForest.Parser.Forest
import PackedForest.Rule.Table

/-!
# Parsers and their settings

A parser starts without grammars, with one target factor and the customary labels. Grammars are
added in order; a setting for all of them also holds for those that are added later.
-/

namespace PackedForest

/-- The label of the node that stands for a whole sentence, unless another one is set. -/
def defaultRootLabel : String := "S"

/-- Span limits were given in another number than there are grammars. -/
structure LimitMismatch where
  limits : Nat
  grammars : Nat
deriving DecidableEq

def LimitMismatch.message (e : LimitMismatch) : String :=
  s!"got {e.limits} span limits for {e.grammars} grammars"

/-- Why a file gives no grammar: its table is refused, or it could not be opened for the given
reason. -/
inductive LoadError
  | table (file : String) (cause : TableError)
  | unopened (file : String) (cause : String)

def LoadError.message : LoadError → String
  | table file cause => s!"{file}: {cause.message}"
  | unopened file cause => s!"couldn't open {file}: {cause}"

/-- Reads a grammar from the lines of its rule table. -/
def readGrammar (factors : Nat) (lines : List (Option (List Char))) :
    Interning TableError Grammar :=
  return .ofRules (← readTable factors lines)

/-- The number of a label. -/
def internLabel (label : String) : StateM Vocabulary WordId := do
  let id ← intern label
  return (id : Int)

namespace Parser

/-- A parser without grammars. The customary labels are numbered now. -/
def new : StateM Vocabulary Parser := do
  let rootLabel ← internLabel defaultRootLabel
  let unknownLabel ← internLabel defaultLabel
  return {
    grammars := []
    factors := 1
    rootLabel, unknownLabel
    deleteUnknown := false
    keepSourceText := false }

/-- Adds a grammar after the others. It keeps source texts if it does so itself or if the parser
does. -/
def addGrammar (p : Parser) (g : Grammar) : Parser :=
  let g := if p.keepSourceText then { g with keepSourceText := true } else g
  { p with grammars := p.grammars ++ [g] }

/-- Keeps the source texts of all rules, or of none. -/
def setKeepSourceText (p : Parser) (keep : Bool) : Parser :=
  { p with
    keepSourceText := keep
    grammars := p.grammars.map fun g => { g with keepSourceText := keep } }

/-- Sets the span limit of each grammar. -/
def setSpanLimits (p : Parser) (limits : List Nat) : Except LimitMismatch Parser :=
  if limits.length = p.grammars.length then
    .ok { p with
      grammars := p.grammars.zipWith (fun g limit => { g with spanLimit := limit }) limits }
  else .error ⟨limits.length, p.grammars.length⟩

/-- Adds a grammar for each file, in order. A file is its name and its bytes, or why it could
not be opened. -/
def addFiles (factors : Nat) :
    Parser → List (String × Except String (List UInt8)) → Interning LoadError Parser
  | p, [] => return p
  | p, (file, .ok bytes) :: files => do
    let g ← (readGrammar factors (Text.linesOfBytes bytes)).adapt (.table file)
    addFiles factors (p.addGrammar g) files
  | _, (file, .error cause) :: _ => throw (.unopened file cause)

/-- The parser of some files, for the given number of target factors. -/
def ofFiles (factors : Nat) (files : List (String × Except String (List UInt8))) :
    Interning LoadError Parser := do
  let p ← new
  addFiles factors { p with factors } files

end Parser

end PackedForest
