import PackedForest.Derivation.Tree
import PackedForest.Proofs.Rule.Use
import PackedForest.Proofs.Vocabulary

/-!
# Laying out subtrees

The layout of a span goes from position to position. Where a subtree starts it takes the subtree
and goes on behind it; elsewhere it takes the word that stands there. A subtree that starts before
the position that the layout has come to would be left out.

None is left out if the subtrees stand on the pieces that a cut of the span gives to slots: then the
children stand on the pieces of the cut (`layout_eq`), and if the subtrees read back the words that
they stand over, so does the whole.
-/

namespace PackedForest

namespace Tree

variable {α β : Type}

/-- A leaf stands over one position, and the children of each branch stand on the pieces of a cut
of its span. -/
inductive Tiled : Tree α β → Prop
  | leaf {word : β} {pos : Nat} : Tiled (.leaf word ⟨pos, pos + 1⟩)
  | branch {label : α} {span : Span} {children : List (Tree α β)}
      (cut : span.IsCut (children.map Tree.span)) (below : ∀ t ∈ children, Tiled t) :
      Tiled (.branch label span children)

mutual

/-- The number of branches. -/
def branchCount : Tree α β → Nat
  | branch _ _ children => 1 + branchCountBelow children
  | leaf .. => 0

def branchCountBelow : List (Tree α β) → Nat
  | [] => 0
  | t :: children => t.branchCount + branchCountBelow children

end

/-- The tree is tiled, and its leaves are the words of its span. -/
structure ReadsBack (v : Vocabulary) (words : List WordId) (t : Tree α String) : Prop where
  tiled : t.Tiled
  leaves : ((words.drop t.span.start).take (t.span.stop - t.span.start)).mapM v.symbol =
    .ok t.leaves

end Tree

namespace Span

/-- The words of a span are those of a first part of it and those of the rest. -/
theorem words_append {α : Type} (words : List α) {start middle stop : Nat}
    (first : start ≤ middle) (rest : middle ≤ stop) :
    (words.drop start).take (stop - start) =
      (words.drop start).take (middle - start) ++ (words.drop middle).take (stop - middle) := by
  have parts : stop - start = (middle - start) + (stop - middle) := by omega
  rw [parts, List.take_add, List.drop_drop, Nat.add_sub_cancel' first]

/-- A piece starts where those before it have stopped. -/
theorem IsCut.pairwise {span : Span} {pieces : List Span} (cut : span.IsCut pieces) :
    pieces.Pairwise fun s t => s.start ≤ t.start := by
  induction pieces generalizing span with
  | nil => exact .nil
  | cons piece pieces ih =>
      obtain ⟨-, nonempty, rest⟩ := cut
      refine List.pairwise_cons.2 ⟨fun later member => ?_, ih rest⟩
      exact Nat.le_trans (Nat.le_of_lt nonempty) (rest.within member).1.1

end Span

section Layout

variable {v : Vocabulary} {words : List WordId} {stop pos : Nat}

theorem layout_done (subtrees : List (Tree String String)) :
    layout v words stop stop subtrees = .ok [] := by
  unfold layout
  rw [if_neg (Nat.lt_irrefl _)]
  rfl

theorem layout_subtree (more : pos < stop) {t : Tree String String} (here : t.span.start = pos)
    (wide : pos < t.span.stop) {rest children : List (Tree String String)}
    (laid : layout v words stop t.span.stop rest = .ok children) :
    layout v words stop pos (t :: rest) = .ok (t :: children) := by
  rw [layout, if_pos more, if_pos here, Nat.max_eq_left wide, laid]
  rfl

theorem layout_word (more : pos < stop) {word : String}
    (leaf : leafAt v words pos = .ok (.leaf word ⟨pos, pos + 1⟩))
    {subtrees children : List (Tree String String)}
    (later : ∀ t ∈ subtrees, t.span.start ≠ pos)
    (laid : layout v words stop (pos + 1) subtrees = .ok children) :
    layout v words stop pos subtrees = .ok (.leaf word ⟨pos, pos + 1⟩ :: children) := by
  cases subtrees with
  | nil =>
      rw [layout, if_pos more, leaf, laid]
      rfl
  | cons t rest =>
      rw [layout, if_pos more, if_neg (later t List.mem_cons_self), leaf, laid]
      rfl

theorem leafAt_eq {id : WordId} {word : String} (here : words[pos]? = some id)
    (named : v.symbol id = .ok word) : leafAt v words pos = .ok (.leaf word ⟨pos, pos + 1⟩) := by
  rw [leafAt, here]
  dsimp only
  rw [named]
  rfl

end Layout

/-- The pieces of slots are some of the pieces, in their order. -/
theorem Symbol.gaps_sublist {symbols : List Symbol} {pieces : List Span}
    (length : symbols.length = pieces.length) :
    ((gaps (symbols.zip pieces)).map (·.2)).Sublist pieces := by
  induction symbols generalizing pieces with
  | nil => exact List.nil_sublist _
  | cons symbol symbols ih =>
      cases pieces with
      | nil => cases length
      | cons piece pieces =>
          have rest := ih (Nat.succ.inj length)
          cases symbol with
          | word id => exact rest.cons piece
          | slot index => exact rest.cons_cons piece

theorem Tree.ReadsBack.leaf {α : Type} {v : Vocabulary} {words : List WordId} {pos : Nat}
    {id : WordId} {word : String} (here : words[pos]? = some id) (named : v.symbol id = .ok word) :
    (Tree.leaf word ⟨pos, pos + 1⟩ : Tree α String).ReadsBack v words where
  tiled := .leaf
  leaves := by
    obtain ⟨inside, rfl⟩ := List.getElem?_eq_some_iff.1 here
    dsimp only [Tree.span]
    rw [Rule.words_cons (Nat.lt_succ_self pos) inside, Nat.sub_self, List.take_zero]
    exact mapM_eq_ok_iff.2 (.cons named .nil)

/-- The leaves below a branch are the words of its span if its children read back theirs. -/
theorem Tree.mapM_leavesBelow {α : Type} {v : Vocabulary} {words : List WordId} {pos stop : Nat}
    {children : List (Tree α String)} (cut : Span.IsCut ⟨pos, stop⟩ (children.map Tree.span))
    (read : ∀ t ∈ children, t.ReadsBack v words) :
    ((words.drop pos).take (stop - pos)).mapM v.symbol = .ok (Tree.leavesBelow children) := by
  induction children generalizing pos with
  | nil =>
      obtain rfl : pos = stop := cut
      rw [Nat.sub_self, List.take_zero]
      rfl
  | cons t children ih =>
      obtain ⟨start, nonempty, rest⟩ := cut
      obtain rfl : t.span.start = pos := start
      obtain ⟨read_here, read_later⟩ := List.forall_mem_cons.1 read
      rw [Span.words_append words (Nat.le_of_lt nonempty) rest.start_le_stop, Tree.leavesBelow]
      exact mapM_eq_ok_iff.2 (List.rel_append (mapM_eq_ok_iff.1 read_here.leaves)
        (mapM_eq_ok_iff.1 (ih rest read_later)))

theorem Tree.ReadsBack.branch {α : Type} {v : Vocabulary} {words : List WordId} {label : α}
    {span : Span} {children : List (Tree α String)} (cut : span.IsCut (children.map Tree.span))
    (read : ∀ t ∈ children, t.ReadsBack v words) :
    (Tree.branch label span children).ReadsBack v words where
  tiled := .branch cut fun t listed => (read t listed).tiled
  leaves := by
    rw [Tree.leaves]
    exact Tree.mapM_leavesBelow cut read

/-- Subtrees on the pieces of the slots are laid out so that the children stand on all pieces and
read back their words. No branch is lost and none comes in. -/
theorem layout_eq {v : Vocabulary} {words : List WordId} {pos stop : Nat} {symbols : List Symbol}
    {pieces : List Span} {subtrees : List (Tree String String)}
    (named : ∀ id ∈ words, v.Names id) (length : symbols.length = pieces.length)
    (cut : Span.IsCut ⟨pos, stop⟩ pieces) (fits : ∀ x ∈ symbols.zip pieces, x.1.Fits words x.2)
    (placed : subtrees.map Tree.span = (Symbol.gaps (symbols.zip pieces)).map (·.2))
    (read : ∀ t ∈ subtrees, t.ReadsBack v words) :
    ∃ children, layout v words stop pos subtrees = .ok children ∧
      children.map Tree.span = pieces ∧ (∀ t ∈ children, t.ReadsBack v words) ∧
      Tree.branchCountBelow children = Tree.branchCountBelow subtrees := by
  -- The subtrees are those of the slots still to come, so the first of them starts where the
  -- layout has come to exactly if the next symbol is a slot.
  induction symbols generalizing pos pieces subtrees with
  | nil =>
      obtain rfl := List.length_eq_zero_iff.1 length.symm
      obtain rfl := List.map_eq_nil_iff.1 placed
      obtain rfl : pos = stop := cut
      exact ⟨[], layout_done [], rfl, read, rfl⟩
  | cons symbol symbols ih =>
      cases pieces with
      | nil => cases length
      | cons piece pieces =>
          obtain ⟨start, nonempty, rest⟩ := cut
          dsimp only at start
          subst start
          obtain ⟨fits_here, fits_later⟩ := List.forall_mem_cons.1 fits
          have more : piece.start < stop := Nat.lt_of_lt_of_le nonempty rest.start_le_stop
          cases symbol with
          | word id =>
              obtain ⟨pos, next⟩ := piece
              obtain ⟨one, here⟩ := fits_here
              obtain rfl : next = pos + 1 := one
              obtain ⟨word, symbol_eq⟩ := named id (List.mem_of_getElem? here)
              have placed : subtrees.map Tree.span =
                  (Symbol.gaps (symbols.zip pieces)).map (·.2) := placed
              have later : ∀ t ∈ subtrees, t.span.start ≠ pos := by
                intro t listed
                have in_rest : t.span ∈ pieces := by
                  refine (Symbol.gaps_sublist (Nat.succ.inj length)).subset ?_
                  exact placed ▸ List.mem_map_of_mem listed
                exact Nat.ne_of_gt (Nat.lt_of_lt_of_le nonempty (rest.within in_rest).1.1)
              obtain ⟨children, laid, spans, read_all, count⟩ :=
                ih (Nat.succ.inj length) rest fits_later placed read
              exact ⟨_, layout_word more (leafAt_eq here symbol_eq) later laid,
                congrArg (List.cons (⟨pos, pos + 1⟩ : Span)) spans,
                List.forall_mem_cons.2 ⟨.leaf here symbol_eq, read_all⟩,
                (Nat.zero_add _).trans count⟩
          | slot index =>
              cases subtrees with
              | nil => cases placed
              | cons t subtrees =>
                  obtain ⟨here, placed⟩ := List.cons.inj placed
                  dsimp only at here
                  obtain ⟨read_here, read_later⟩ := List.forall_mem_cons.1 read
                  obtain ⟨children, laid, spans, read_all, count⟩ :=
                    ih (Nat.succ.inj length) rest fits_later placed read_later
                  subst here
                  refine ⟨_, layout_subtree more rfl nonempty laid, congrArg (t.span :: ·) spans,
                    List.forall_mem_cons.2 ⟨read_here, read_all⟩, ?_⟩
                  rw [Tree.branchCountBelow, Tree.branchCountBelow, count]

end PackedForest
