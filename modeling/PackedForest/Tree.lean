import PackedForest.Span

/-!
# Trees over a sentence

A tree has labelled branches and words as its leaves, each with the span it stands for. It is
written in one line, `(S (NP the cat) (V sat))`.
-/

namespace PackedForest

/-- A branch with its label, or a word; each over a span of the sentence. -/
inductive Tree (α β : Type)
  | branch (label : α) (span : Span) (children : List (Tree α β))
  | leaf (word : β) (span : Span)

namespace Tree

variable {α β γ δ : Type}

def span : Tree α β → Span
  | branch _ span _ => span
  | leaf _ span => span

def isLeaf : Tree α β → Bool
  | branch .. => false
  | leaf .. => true

def isBranch (t : Tree α β) : Bool := !t.isLeaf

/-- The word of a leaf. -/
def word? : Tree α β → Option β
  | branch .. => none
  | leaf word _ => some word

/-- The label, the span and the children of a branch. -/
def branch? : Tree α β → Option (α × Span × List (Tree α β))
  | branch label span children => some (label, span, children)
  | leaf .. => none

mutual

/-- The words under the tree, from left to right. -/
def leaves : Tree α β → List β
  | branch _ _ children => leavesBelow children
  | leaf word _ => [word]

def leavesBelow : List (Tree α β) → List β
  | [] => []
  | t :: children => t.leaves ++ leavesBelow children

end

mutual

/-- The tree with its labels and words changed. -/
def map (onLabel : α → Span → γ) (onWord : β → Span → δ) : Tree α β → Tree γ δ
  | branch label span children =>
    branch (onLabel label span) span (mapBelow onLabel onWord children)
  | leaf word span => leaf (onWord word span) span

def mapBelow (onLabel : α → Span → γ) (onWord : β → Span → δ) :
    List (Tree α β) → List (Tree γ δ)
  | [] => []
  | t :: children => t.map onLabel onWord :: mapBelow onLabel onWord children

end

mutual

/-- Equality of trees: the same shape, labels, words and spans. -/
def beq [BEq α] [BEq β] : Tree α β → Tree α β → Bool
  | branch label span children, branch label' span' children' =>
    label == label' && span == span' && beqBelow children children'
  | leaf word span, leaf word' span' => word == word' && span == span'
  | _, _ => false

def beqBelow [BEq α] [BEq β] : List (Tree α β) → List (Tree α β) → Bool
  | [], [] => true
  | t :: children, t' :: children' => t.beq t' && beqBelow children children'
  | _, _ => false

end

instance [BEq α] [BEq β] : BEq (Tree α β) := ⟨beq⟩

mutual

/-- The tree in brackets. -/
def render : Tree String String → String
  | branch label _ children => "(" ++ label ++ renderBelow children ++ ")"
  | leaf word _ => word

def renderBelow : List (Tree String String) → String
  | [] => ""
  | t :: children => " " ++ t.render ++ renderBelow children

end

end Tree

/-- A label with the span it stands over. -/
def constituent (label : String) (span : Span) : String :=
  s!"{label}[{span.start},{span.stop})"

end PackedForest
