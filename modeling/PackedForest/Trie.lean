import PackedForest.RuleTree

/-!
# Tries

A trie indexes rules by the paths of their source sides, one branch for each step. It is
frozen from a rule tree: the nodes of the tree are added in order, each with the path that
leads to it. A node takes the next free number when it is first reached, and a rule set takes
one when its first rule arrives.
-/

namespace PackedForest

/-- The rules that end at one node of a trie, under the number of the set. -/
structure RuleSet where
  number : Nat
  rules : List Rule

/-- A node with its number, the rules that end there, and its branches in the order in which
they were opened. -/
inductive Trie
  | node (number : Nat) (ruleSet : Option RuleSet) (branches : List (Step × Trie))

namespace Trie

def number : Trie → Nat
  | node number _ _ => number

def ruleSet : Trie → Option RuleSet
  | node _ ruleSet _ => ruleSet

def branches : Trie → List (Step × Trie)
  | node _ _ branches => branches

/-- The rules that end at the node. -/
def rules (t : Trie) : List Rule := (t.ruleSet.map (·.rules)).getD []

/-- The node one step further. -/
def child? (t : Trie) (step : Step) : Option Trie := t.branches.lookup step

/-- The node at the end of a path. -/
def find? : Trie → List Step → Option Trie
  | t, [] => some t
  | t, step :: path => (t.child? step).bind fun child => child.find? path

/-- The branches for words, in increasing order of the words. -/
def wordBranches (t : Trie) : List (WordId × Trie) :=
  (t.branches.filterMap fun branch =>
    match branch.1 with
    | .word id => some (id, branch.2)
    | .gap _ => none).mergeSort (fun a b => a.1 ≤ b.1)

/-- The branches for gaps, in the order in which they were opened. -/
def gapBranches (t : Trie) : List (Labels × Trie) :=
  t.branches.filterMap fun branch =>
    match branch.1 with
    | .word _ => none
    | .gap labels => some (labels, branch.2)

/-- Whether some rule's source side starts with these words. -/
def hasPrefix (t : Trie) (words : List WordId) : Bool := (t.find? (words.map .word)).isSome

/-- Puts a subtrie behind a step, as the last branch if the step has none yet. -/
def setBranch (step : Step) (child : Trie) : List (Step × Trie) → List (Step × Trie)
  | [] => [(step, child)]
  | branch :: branches =>
    if step = branch.1 then (step, child) :: branches else branch :: setBranch step child branches

/-- The next free numbers while a trie is built. -/
structure Supply where
  nodes : Nat
  ruleSets : Nat

/-- Adds rules to those of a set. A set that does not exist is not opened for no rules. -/
def addRules (rules : List Rule) : Option RuleSet → StateM Supply (Option RuleSet)
  | some set => return some { set with rules := set.rules ++ rules }
  | none =>
    if rules.isEmpty then return none
    else modifyGet fun supply =>
      (some ⟨supply.ruleSets, rules⟩, { supply with ruleSets := supply.ruleSets + 1 })

/-- A node that nothing has reached before. -/
def fresh : StateM Supply Trie :=
  modifyGet fun supply => (node supply.nodes none [], { supply with nodes := supply.nodes + 1 })

/-- Adds rules at the end of a path, opening the branches that are missing. -/
def add (rules : List Rule) : List Step → Trie → StateM Supply Trie
  | [], t => do
    return node t.number (← addRules rules t.ruleSet) t.branches
  | step :: path, t => do
    let child ←
      match t.child? step with
      | some child => pure child
      | none => fresh
    let child ← add rules path child
    return node t.number t.ruleSet (setBranch step child t.branches)

/-- The trie of a list of paths and the rules that end there. -/
def ofEntries (entries : List (List Step × List Rule)) : Trie :=
  (entries.foldlM (fun t entry => t.add entry.2 entry.1) (node 0 none []) ⟨1, 0⟩).1

/-- The trie of a rule tree. -/
def freeze (tree : RuleTree) : Trie := ofEntries (tree.entries [])

mutual

/-- Every node, a node before those below it. -/
def nodes : Trie → List Trie
  | node number ruleSet branches => node number ruleSet branches :: nodesBelow branches

def nodesBelow : List (Step × Trie) → List Trie
  | [] => []
  | (_, child) :: branches => child.nodes ++ nodesBelow branches

end

/-- The number of nodes. -/
def size (t : Trie) : Nat := t.nodes.length

/-- The rule sets in the order of their numbers. -/
def ruleSets (t : Trie) : List (List Rule) :=
  ((t.nodes.filterMap ruleSet).mergeSort (fun a b => a.number ≤ b.number)).map (·.rules)

end Trie

end PackedForest
