import PackedForest.Features.Reader
import PackedForest.Rule
import PackedForest.Text.Digit

/-!
# Reading a rule

A line of a rule table has three columns, parted by three bars: the source side, the target
sides, and the features. A side is a list of tokens that may end in `@ LABEL`, the label its
head is built under. A token `x3:NP` is a gap named `3`, to be filled under the label `NP`;
any other token is a word, and quotes around it are dropped.

Strings are numbered as they are met. A line that is refused has numbered those before its
fault.
-/

namespace PackedForest

inductive RuleError
  | fewColumns (line : List Char)
  | danglingHead (side : List Char)
  | emptySource (line : List Char)
  | repeatedGap (name line : List Char)
  | factorCount (expected found : Nat) (line : List Char)
  | unknownGap (name line : List Char)
  | feature (cause : FeatureError)
deriving DecidableEq

def RuleError.message : RuleError → String
  | fewColumns line => s!"bad line in rule table: {String.ofList line}"
  | danglingHead side => s!"dangling @ without a label in {Text.quoted side}"
  | emptySource line => s!"empty source side in rule: {String.ofList line}"
  | repeatedGap name line =>
    s!"non-terminal x{String.ofList name} repeated in source of: {String.ofList line}"
  | factorCount expected found line =>
    s!"expected {expected} target factor(s) but found {found} in: {String.ofList line}"
  | unknownGap name line =>
    s!"target non-terminal x{String.ofList name} missing from source of: {String.ofList line}"
  | feature cause => cause.message

/-- An element of a side as it is written. -/
inductive Token
  | word (text : List Char)
  | gap (name label : List Char)
deriving DecidableEq, Repr

namespace Token

/-- A word without the quotes around it. A single quote mark is a word of its own. -/
def unquote : List Char → List Char
  | '"' :: rest => if rest.getLast? = some '"' then rest.dropLast else '"' :: rest
  | text => text

/-- The gap that a text writes: an `x`, a name of digits, a colon and a label. -/
def gap? : List Char → Option Token
  | 'x' :: rest =>
    match rest.takeWhile Text.isDigit, rest.dropWhile Text.isDigit with
    | d :: name, ':' :: l :: label => some (gap (d :: name) (l :: label))
    | _, _ => none
  | _ => none

def ofText (text : List Char) : Token := (gap? text).getD (word (unquote text))

end Token

/-- A side as it is written: its tokens and its head label. -/
structure SideText where
  tokens : List Token
  head : Option (List Char)
deriving DecidableEq, Repr

/-- Parts a side from the head label at its end. An at sign that ends the side is refused,
unless it is the label of another one. -/
def SideText.read (side : List Char) : Except RuleError SideText :=
  match (Text.words side).reverse with
  | label :: ['@'] :: tokens => .ok ⟨tokens.reverse.map Token.ofText, some label⟩
  | ['@'] :: _ => .error (.danglingHead side)
  | tokens => .ok ⟨tokens.reverse.map Token.ofText, none⟩

/-- The label of a head that a side does not name. -/
def defaultLabel : String := "X"

/-- The gaps read so far: the name of each slot and the labels it is filled under. -/
abbrev Gaps := List (List Char × Labels)

namespace Gaps

def slot? (gaps : Gaps) (name : List Char) : Option Nat := gaps.findIdx? (·.1 = name)

/-- The gaps with the label of one slot set for a target factor. -/
def setTarget (gaps : Gaps) (slot factor : Nat) (label : WordId) : Gaps :=
  gaps.modify slot fun gap => (gap.1, gap.2.setTarget factor label)

end Gaps

/-- Reads the source side. Each gap opens the next slot, under one label for every factor. -/
def readSource (factors : Nat) (line : List Char) :
    Gaps → List Token → Interning RuleError (List Symbol × Gaps)
  | gaps, [] => return ([], gaps)
  | gaps, .word text :: tokens => do
    let id ← intern (String.ofList text)
    let (symbols, gaps) ← readSource factors line gaps tokens
    return (.word id :: symbols, gaps)
  | gaps, .gap name label :: tokens => do
    if (gaps.slot? name).isSome then throw (.repeatedGap name line)
    let id ← intern (String.ofList label)
    let (symbols, all) ←
      readSource factors line (gaps ++ [(name, .uniform id factors)]) tokens
    return (.slot gaps.length :: symbols, all)

/-- Reads the tokens of one target side. A gap takes the label written here for this factor. -/
def readTarget (factor : Nat) (line : List Char) :
    Gaps → List Token → Interning RuleError (List Symbol × Gaps)
  | gaps, [] => return ([], gaps)
  | gaps, .word text :: tokens => do
    let id ← intern (String.ofList text)
    let (symbols, gaps) ← readTarget factor line gaps tokens
    return (.word id :: symbols, gaps)
  | gaps, .gap name label :: tokens => do
    match gaps.slot? name with
    | none => throw (.unknownGap name line)
    | some slot =>
      let id ← intern (String.ofList label)
      let (symbols, gaps) ← readTarget factor line (gaps.setTarget slot factor id) tokens
      return (.slot slot :: symbols, gaps)

/-- Reads the target sides in order. A side that names no head keeps the label that the source
side has. -/
def readTargets (line : List Char) :
    (factor : Nat) → Labels → Gaps → List (List Char) →
      Interning RuleError (List (List Symbol) × Labels × Gaps)
  | _, head, gaps, [] => return ([], head, gaps)
  | factor, head, gaps, text :: texts => do
    let side ← SideText.read text
    let head ←
      match side.head with
      | none => pure head
      | some label => do
        let id ← intern (String.ofList label)
        pure (head.setTarget factor id)
    let (target, gaps) ← readTarget factor line gaps side.tokens
    let (targets, head, gaps) ← readTargets line (factor + 1) head gaps texts
    return (target :: targets, head, gaps)

/-- The columns of a rule, and the factors of its second column. -/
def ruleColumns (line : List Char) : List (List Char) := Text.columns '|' ['|', '|'] line

def factorColumns (column : List Char) : List (List Char) :=
  Text.columns '|' ['C', 'O', 'L', '|'] column

/-- Reads a line of a rule table with the given number of target factors. Columns after the
third are not read. -/
def readRule (factors : Nat) (line : List Char) : Interning RuleError Rule := do
  match ruleColumns line with
  | sourceColumn :: targetColumn :: featureColumn :: _ =>
    let side ← SideText.read sourceColumn
    if side.tokens.isEmpty then throw (.emptySource line)
    let label ← intern ((side.head.map String.ofList).getD defaultLabel)
    let (source, gaps) ← readSource factors line [] side.tokens
    let texts := factorColumns targetColumn
    if texts.length ≠ factors then throw (.factorCount factors texts.length line)
    let (targets, head, gaps) ← readTargets line 0 (.uniform label factors) gaps texts
    let features ← (readFeatures featureColumn).adapt .feature
    return { source, targets, head, slots := gaps.map (·.2), features,
             sourceText := String.ofList (Text.trim sourceColumn) }
  | _ => throw (.fewColumns line)

end PackedForest
