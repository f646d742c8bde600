import PackedForest.Rule

/-!
# Unary rules

A rule whose source side is a single gap builds one label tuple directly over another. Such
rules are kept in a list of their own, in the order of the table, and each is referred to by
its place in that list.

The closure of a tuple is found breadth first. A rule belongs to it when its head lies one step
further from the start than its tail, so every tail is built before it is used and no cycle is
followed.
-/

namespace PackedForest

/-- A step of a closure: the tuple it starts from, and the place of its rule. -/
structure UnaryStep where
  tail : Labels
  rule : Nat
deriving DecidableEq, Repr

/-- The unary rules of a grammar. -/
abbrev UnaryRules := List Rule

namespace UnaryRules

/-- The tuple that a unary rule builds its head over. -/
def tail? (rule : Rule) : Option Labels := rule.slots.head?

/-- The rules over a tuple, with their places, in the order of the table. -/
def withTail (rules : UnaryRules) (tail : Labels) : List (Nat × Rule) :=
  rules.zipIdx.filterMap fun (rule, place) =>
    if tail? rule = some tail then some (place, rule) else none

/-- The tuples that one step leads to. -/
def outputs (rules : UnaryRules) (tail : Labels) : List Labels :=
  ((rules.withTail tail).map (·.2.head)).eraseDups.mergeSort
    fun a b => (compare a b).isLE

/-- The tuples found so far with their distances from the start, in the order in which they were
found. -/
abbrev Found := List (Labels × Nat)

/-- Judges the rules over a tuple at the given distance. A rule is kept when its head is new or
lies further away than the tuple; new heads are found one step away. -/
def expand (tail : Labels) (distance : Nat) :
    List (Nat × Rule) → Found → List UnaryStep × Found
  | [], found => ([], found)
  | (place, rule) :: rules, found =>
    match found.lookup rule.head with
    | none =>
      let (steps, found) := expand tail distance rules (found ++ [(rule.head, distance + 1)])
      (⟨tail, place⟩ :: steps, found)
    | some other =>
      let (steps, found) := expand tail distance rules found
      (if distance < other then ⟨tail, place⟩ :: steps else steps, found)

/-- Expands the found tuples from the given place on, those that are found meanwhile included. -/
def search (rules : UnaryRules) : (fuel place : Nat) → Found → List UnaryStep
  | 0, _, _ => []
  | fuel + 1, place, found =>
    match found[place]? with
    | none => []
    | some (tail, distance) =>
      let (steps, found) := expand tail distance (rules.withTail tail) found
      steps ++ search rules fuel (place + 1) found

/-- Every step to take once a node with this tuple exists. Each tuple found beyond the first is
the head of a rule, so there are no more than the fuel allows for. -/
def closure (rules : UnaryRules) (start : Labels) : List UnaryStep :=
  rules.search (rules.length + 1) 0 [(start, 0)]

end UnaryRules

end PackedForest
