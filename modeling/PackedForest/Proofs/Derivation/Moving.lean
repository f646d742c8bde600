import PackedForest.Derivation.Tree
import PackedForest.Proofs.Graph.Lockstep

/-!
# Trees moved along the sentence

A derivation over a window of a sentence has the same tree as its twin over the sentence, except
that the spans of the latter are further on by the offset of the window. Subtrees are laid out by
where they start, which the offset does not change, and the words between them are the same.
-/

namespace PackedForest

/-- The node of a sentence that a node over a window stands for: the same symbol, over the span
moved on by the offset. -/
structure Node.Moved (offset size : Nat) (n n' : Node) : Prop where
  sym : n.sym = n'.sym
  span : n.span = n'.span.shift offset
  inside : n'.span.stop ≤ size

namespace Tree

variable {α β : Type}

mutual

/-- The tree, further on in the sentence. -/
def shift (offset : Nat) : Tree α β → Tree α β
  | branch label span children => branch label (span.shift offset) (shiftBelow offset children)
  | leaf word span => leaf word (span.shift offset)

def shiftBelow (offset : Nat) : List (Tree α β) → List (Tree α β)
  | [] => []
  | t :: children => t.shift offset :: shiftBelow offset children

end

theorem shiftBelow_eq_map (offset : Nat) (children : List (Tree α β)) :
    shiftBelow offset children = children.map (shift offset) := by
  induction children with
  | nil => rfl
  | cons t children ih => rw [shiftBelow, ih, List.map_cons]

theorem shift_branch (offset : Nat) (label : α) (span : Span) (children : List (Tree α β)) :
    (branch label span children).shift offset =
      branch label (span.shift offset) (children.map (shift offset)) := by
  rw [shift, shiftBelow_eq_map]

@[simp] theorem span_shift (offset : Nat) (t : Tree α β) :
    (t.shift offset).span = t.span.shift offset := by
  cases t <;> rfl

/-- Trees stand in the same order, however far they are moved on. -/
theorem mergeSort_shift (offset : Nat) (trees : List (Tree α β)) :
    (trees.map (shift offset)).mergeSort (fun s t => s.span.start ≤ t.span.start) =
      (trees.mergeSort fun s t => s.span.start ≤ t.span.start).map (shift offset) := by
  refine (List.map_mergeSort fun s _ t _ => ?_).symm
  simp

end Tree

section Moved

variable {v : Vocabulary} {words words' : List WordId} {offset size : Nat}
variable (same : ∀ pos < size, words[offset + pos]? = words'[pos]?)

include same

theorem leafAt_shift {pos : Nat} (inside : pos < size) :
    leafAt v words (offset + pos) = Tree.shift offset <$> leafAt v words' pos := by
  rw [leafAt, leafAt, same pos inside]
  cases words'[pos]? with
  | none => rfl
  | some id =>
      dsimp only
      cases v.symbol id <;> rfl

omit same in
/-- Trees are moved on before or after they are put in a list. -/
theorem cons_shift (first : Except Fault (Tree String String))
    (rest : Except Fault (List (Tree String String))) :
    (do return (← Tree.shift offset <$> first) :: (← List.map (Tree.shift offset) <$> rest)) =
      List.map (Tree.shift offset) <$> (do return (← first) :: (← rest)) := by
  cases first with
  | error fault => rfl
  | ok t => cases rest <;> rfl

theorem layout_shift {stop : Nat} (inside : stop ≤ size) (pos : Nat)
    (subtrees : List (Tree String String)) :
    layout v words (offset + stop) (offset + pos) (subtrees.map (Tree.shift offset)) =
      List.map (Tree.shift offset) <$> layout v words' stop pos subtrees := by
  fun_induction layout v words' stop pos subtrees with
  | case1 t rest before ih =>
      have start : (t.shift offset).span.start = offset + t.span.start := by
        rw [Tree.span_shift, Span.shift_start]
      have next : max (t.shift offset).span.stop (offset + t.span.start + 1) =
          offset + max t.span.stop (t.span.start + 1) := by
        rw [Tree.span_shift, Span.shift_stop, Nat.add_assoc, Nat.add_max_add_left]
      rw [List.map_cons, layout, if_pos (Nat.add_lt_add_left before offset), if_pos start, next, ih]
      exact cons_shift (.ok t) _
  | case2 pos before t rest elsewhere ih =>
      have later : (t.shift offset).span.start ≠ offset + pos := by
        rw [Tree.span_shift, Span.shift_start]
        exact fun same => elsewhere (Nat.add_left_cancel same)
      rw [List.map_cons] at ih ⊢
      rw [layout, if_pos (Nat.add_lt_add_left before offset), if_neg later,
        leafAt_shift same (Nat.lt_of_lt_of_le before inside), Nat.add_assoc, ih]
      exact cons_shift _ _
  | case3 pos before ih =>
      rw [List.map_nil] at ih ⊢
      rw [layout, if_pos (Nat.add_lt_add_left before offset),
        leafAt_shift same (Nat.lt_of_lt_of_le before inside), Nat.add_assoc, ih]
      exact cons_shift _ _
  | case4 pos subtrees after =>
      unfold layout
      rw [if_neg (by omega)]
      rfl

namespace Derivation

variable {R : NodeId → NodeId → Prop}

omit same in
theorem toTrees_shift {below below' : List Derivation}
    (each : List.Forall₂ (fun d d' => d.toTree v words = Tree.shift offset <$> d'.toTree v words')
      below below') :
    toTrees v words below = List.map (Tree.shift offset) <$> toTrees v words' below' := by
  induction each with
  | nil => rfl
  | @cons d d' below below' first _ ih =>
      rw [toTrees, toTrees, first, ih]
      exact cons_shift _ _

/-- The tree of a derivation is that of its twin, moved on. -/
theorem Alike.toTree_eq {d d' : Derivation} (alike : d.Alike R (Node.Moved offset size) d') :
    d.toTree v words = Tree.shift offset <$> d'.toTree v words' := by
  match d, d', alike with
  | .leaf node, .leaf node', .leaf nodes =>
    rw [toTree, toTree, nodes.sym, nodes.span]
    cases v.symbol node'.sym <;> rfl
  | .step node e below, .step node' e' below', .step nodes edges tails =>
    have each : ∀ d' ∈ below', ∀ d, Derivation.Alike R (Node.Moved offset size) d d' →
        d.toTree v words = Tree.shift offset <$> d'.toTree v words' :=
      fun d' listed d alike => alike.toTree_eq
    have subtrees := toTrees_shift ((forall₂_mem tails).imp fun d d' h => each d' h.2.1 d h.2.2)
    rw [toTree, toTree, nodes.sym, nodes.span, subtrees]
    cases v.symbol node'.sym with
    | error fault => rfl
    | ok label =>
        cases toTrees v words' below' with
        | error fault => rfl
        | ok subtrees =>
            have laid := layout_shift (v := v) same nodes.inside node'.span.start
              (subtrees.mergeSort fun s t => s.span.start ≤ t.span.start)
            rw [← Tree.mergeSort_shift] at laid
            dsimp only [bind, Except.bind, Functor.map, Except.map]
            rw [Span.shift_start, Span.shift_stop, laid]
            cases layout v words' node'.span.stop node'.span.start
              (subtrees.mergeSort fun s t => s.span.start ≤ t.span.start) with
            | error fault => rfl
            | ok children =>
                exact congrArg Except.ok (Tree.shift_branch offset label _ children).symm
termination_by d'

/-- So it is with the trees of alike derivations, one after the other. -/
theorem mapM_toTree_shift {ds ds' : List Derivation}
    (alike : List.Forall₂ (Derivation.Alike R (Node.Moved offset size)) ds ds') :
    ds.mapM (·.toTree v words) = List.map (Tree.shift offset) <$> ds'.mapM (·.toTree v words') := by
  induction alike with
  | nil => rfl
  | cons first _ ih =>
      rw [List.mapM_cons, List.mapM_cons, first.toTree_eq same, ih]
      exact cons_shift _ _

end Derivation

end Moved

end PackedForest
