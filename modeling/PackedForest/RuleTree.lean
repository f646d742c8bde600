import PackedForest.Rule.Path

/-!
# Rule trees

A rule tree is a trie under construction. Its branches are hops, in order: whole runs of words
first, then gaps. A rule hangs off the node where its source side ends. Two nodes may stand at
the same place of a sentence, one behind a long run and one behind two shorter runs; freezing
the tree brings them together.
-/

namespace PackedForest

/-- The rules that end here, and the branches below. -/
inductive RuleTree
  | node (rules : List Rule) (branches : List (Hop × RuleTree))

namespace RuleTree

/-- The tree without rules. -/
def empty : RuleTree := node [] []

instance : Inhabited RuleTree := ⟨empty⟩

def rules : RuleTree → List Rule
  | node rules _ => rules

def branches : RuleTree → List (Hop × RuleTree)
  | node _ branches => branches

/-- Puts a subtree behind a hop, in place of the one that is there. -/
def setBranch (hop : Hop) (child : RuleTree) :
    List (Hop × RuleTree) → List (Hop × RuleTree)
  | [] => [(hop, child)]
  | branch :: branches =>
    match hop.order branch.1 with
    | .lt => (hop, child) :: branch :: branches
    | .eq => (hop, child) :: branches
    | .gt => branch :: setBranch hop child branches

/-- The subtree behind a hop. -/
def child? (t : RuleTree) (hop : Hop) : Option RuleTree := t.branches.lookup hop

/-- The tree with another subtree behind a hop. -/
def setChild (t : RuleTree) (hop : Hop) (child : RuleTree) : RuleTree :=
  node t.rules (setBranch hop child t.branches)

/-- Adds a rule to those that end at the root. -/
def addRule (t : RuleTree) (rule : Rule) : RuleTree := node (t.rules ++ [rule]) t.branches

/-- Adds a rule behind some hops, opening the branches that are missing. -/
def insertAt (rule : Rule) : List Hop → RuleTree → RuleTree
  | [], t => t.addRule rule
  | hop :: hops, t => t.setChild hop (insertAt rule hops ((t.child? hop).getD empty))

/-- Adds a rule where its source side ends. -/
def insert (t : RuleTree) (rule : Rule) : RuleTree := t.insertAt rule (Hop.ofSteps rule.path)

mutual

/-- The number of rules at this node and below. -/
def ruleCount : RuleTree → Nat
  | node rules branches => rules.length + ruleCountBelow branches

def ruleCountBelow : List (Hop × RuleTree) → Nat
  | [] => 0
  | (_, child) :: branches => child.ruleCount + ruleCountBelow branches

end

mutual

/-- Every node with the path that leads to it and the rules that end there, a node before those
below it. -/
def entries (path : List Step) : RuleTree → List (List Step × List Rule)
  | node rules branches => (path, rules) :: entriesBelow path branches

def entriesBelow (path : List Step) :
    List (Hop × RuleTree) → List (List Step × List Rule)
  | [] => []
  | (hop, child) :: branches =>
    child.entries (path ++ hop.steps) ++ entriesBelow path branches

end

/-- A line of a display. -/
def line (indent : Nat) (text : String) : String :=
  String.ofList (List.replicate indent ' ') ++ text ++ "\n"

def renderHop (v : Vocabulary) (indent : Nat) : Hop → Except Fault String
  | .run words => return line indent ("- " ++ (← v.phrase words))
  | .gap labels => return line indent ("+ [" ++ (← labels.render v) ++ "]")

mutual

/-- The tree as indented lines, one for each rule and each branch. -/
def renderFrom (v : Vocabulary) (indent : Nat) : RuleTree → Except Fault String
  | node rules branches => do
    let lines ← rules.mapM fun rule => return line indent ("* " ++ (← rule.render v))
    return String.join lines ++ (← renderBelow v indent branches)

def renderBelow (v : Vocabulary) (indent : Nat) :
    List (Hop × RuleTree) → Except Fault String
  | [] => return ""
  | (hop, child) :: branches => do
    let head ← renderHop v indent hop
    let below ← child.renderFrom v (indent + 2)
    return head ++ below ++ (← renderBelow v indent branches)

end

def render (v : Vocabulary) (t : RuleTree) : Except Fault String := t.renderFrom v 0

end RuleTree

end PackedForest
