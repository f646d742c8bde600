import PackedForest.Trie
import PackedForest.Unary

/-!
# Grammars

A grammar is a rule table made ready for parsing: its unary rules, and a trie over all others.
-/

namespace PackedForest

/-- The widest span that a rule may cover, unless a limit is set. -/
def defaultSpanLimit : Nat := 20

/-- The trie and the unary rules of a rule table, with the settings that the parser reads. -/
structure Grammar where
  trie : Trie
  unaries : UnaryRules
  spanLimit : Nat
  keepSourceText : Bool

namespace Grammar

/-- The tree of the rules that are not unary, in the order of the table. -/
def tree (rules : List Rule) : RuleTree :=
  (rules.filter (!·.isUnary)).foldl RuleTree.insert .empty

/-- The grammar of a rule table. -/
def ofRules (rules : List Rule) : Grammar where
  trie := .freeze (tree rules)
  unaries := rules.filter (·.isUnary)
  spanLimit := defaultSpanLimit
  keepSourceText := false

/-- The number of rules, unary ones included. -/
def ruleCount (g : Grammar) : Nat :=
  g.trie.ruleSets.flatten.length + g.unaries.length

end Grammar

end PackedForest
