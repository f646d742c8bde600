import PackedForest.Rule

/-!
# Paths of source sides

Rules are indexed by the path that their source side spells: a word is a step of its own, and
a gap is the step of the labels it is filled under. A trie under construction takes longer
hops, a whole run of words at a time; `Hop.ofSteps` cuts a path into its longest runs.
-/

namespace PackedForest

/-- One step through the words of a sentence. -/
inductive Step
  | word (id : WordId)
  | gap (labels : Labels)
deriving DecidableEq, Repr

/-- One branch of a trie under construction. -/
inductive Hop
  | run (words : List WordId)
  | gap (labels : Labels)
deriving DecidableEq, Repr

/-- The step of a source symbol. A slot that has no labels takes none. -/
def Rule.step? (r : Rule) : Symbol → Option Step
  | .word id => some (.word id)
  | .slot index => r.slots[index]?.map .gap

/-- The path that the source side of a rule spells. -/
def Rule.path (r : Rule) : List Step := r.source.filterMap r.step?

namespace Hop

/-- The steps of a branch. -/
def steps : Hop → List Step
  | run words => words.map .word
  | gap labels => [.gap labels]

/-- The path cut into hops, with the longest runs of words. -/
def ofSteps : List Step → List Hop
  | [] => []
  | .gap labels :: steps => gap labels :: ofSteps steps
  | .word id :: steps =>
    match ofSteps steps with
    | run words :: hops => run (id :: words) :: hops
    | hops => run [id] :: hops

theorem flatMap_steps_ofSteps (path : List Step) : (ofSteps path).flatMap steps = path := by
  fun_induction ofSteps path with
  | case1 => rfl
  | case2 labels path ih => simp [steps, ih]
  | case3 id path words hops h ih => simpa [h, steps] using ih
  | case4 id path h ih => simp [steps, ih]

/-- Branches in the order they are kept in: runs first, then gaps, each as sequences of
numbers. -/
def order : Hop → Hop → Ordering
  | run words, run words' => compare words words'
  | run _, gap _ => .lt
  | gap _, run _ => .gt
  | gap labels, gap labels' => compare labels labels'

end Hop

end PackedForest
