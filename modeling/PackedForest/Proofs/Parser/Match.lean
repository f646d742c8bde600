import Mathlib.Data.List.Perm.Basic
import Mathlib.Data.Multiset.Bind
import PackedForest.Parser.Match
import PackedForest.Proofs.Span.Cut
import PackedForest.Proofs.Trie.Listing

/-!
# The walk through the trie

A match over a span only looks at spans that lie within it and are narrower: its tails are nodes
of such spans (`Match.tails_through`), and charts that agree on them give the same matches
(`Match.through_congr`).

The walk shares the beginnings of paths between rules, but finds for every rule what a walk
along its own path would find. `fillings` is such a walk, and `Match.through_perm` puts the
matches of a trie together from those of its listing.
-/

namespace PackedForest

/-- Two charts have the same nodes on every span that lies within another and is narrower. -/
def Chart.AgreeBelow (span : Span) (chart chart' : Chart) : Prop :=
  ∀ piece : Span, piece.Within span → piece ≠ span →
    ∀ labels, chart.find? piece labels = chart'.find? piece labels

/-- The piece of a gap lies within the span. It is not the whole span, even if it starts there. -/
theorem piece_within {start pos size more : Nat} (first : start ≤ pos)
    (narrow : more < if pos = start then size else size + 1) :
    Span.Within ⟨pos, pos + more + 1⟩ ⟨start, pos + (size + 1)⟩ ∧
      (⟨pos, pos + more + 1⟩ : Span) ≠ ⟨start, pos + (size + 1)⟩ := by
  refine ⟨⟨first, ?_⟩, fun same => ?_⟩
  · dsimp only
    split at narrow <;> omega
  · obtain ⟨here, stop⟩ := Span.mk.inj same
    rw [if_pos here] at narrow
    omega

/-- The lists of tails under which some words are spelled along a path. `start` is the position of
the span, and `pos` that of the first word. -/
def fillings (chart : Chart) (start : Nat) :
    (pos : Nat) → List WordId → List Step → List (List NodeId)
  | _, [], [] => [[]]
  | pos, word :: words, .word id :: path =>
    if word = id then fillings chart start (pos + 1) words path else []
  | pos, _ :: words, .gap labels :: path =>
    (List.range (if pos = start then words.length else words.length + 1)).flatMap fun more =>
      match chart.find? ⟨pos, pos + more + 1⟩ labels with
      | some tail => (fillings chart start (pos + more + 1) (words.drop more) path).map (tail :: ·)
      | none => []
  | _, _, _ => []

namespace Match

variable {chart chart' : Chart} {start stop : Nat}

/-- What follows a piece is shorter than the words that the piece began. -/
theorem length_drop_lt {word : WordId} {words : List WordId} {more : Nat} :
    (words.drop more).length < (word :: words).length := by
  rw [List.length_drop]
  exact Nat.lt_succ_of_le (Nat.sub_le _ _)

theorem through_congr (agree : Chart.AgreeBelow ⟨start, stop⟩ chart chart') {t : Trie} {pos : Nat}
    {words : List WordId} (first : start ≤ pos) (last : pos + words.length = stop) :
    through chart start t pos words = through chart' start t pos words := by
  induction size : words.length using Nat.strong_induction_on generalizing t pos words with
  | _ size ih =>
      subst size
      cases words with
      | nil => rw [through, through]
      | cons word words =>
          rw [through, through]
          congr 1
          · cases t.child? (.word word) with
            | none => rfl
            | some child =>
                exact ih _ (Nat.lt_succ_self _) (by omega) (by simp at last ⊢; omega) rfl
          · refine List.flatMap_congr fun branch _ => List.flatMap_congr fun more narrow => ?_
            rw [List.mem_range] at narrow
            obtain ⟨inside, proper⟩ := piece_within first narrow
            rw [List.length_cons] at last
            rw [last] at inside proper
            have bound := inside.2
            dsimp only at bound ⊢
            rw [agree _ inside proper]
            cases chart'.find? ⟨pos, pos + more + 1⟩ branch.1 with
            | none => rfl
            | some tail =>
                exact congrArg _
                  (ih _ length_drop_lt (by omega) (by rw [List.length_drop]; omega) rfl)

/-- The tails of a match are nodes of spans within the span that it covers. -/
theorem tails_through {t : Trie} {pos : Nat} {words : List WordId} (first : start ≤ pos)
    (last : pos + words.length = stop) {m : Match} (member : m ∈ through chart start t pos words)
    {tail : NodeId} (filled : tail ∈ m.tails) :
    ∃ piece labels, piece.Within ⟨start, stop⟩ ∧ piece ≠ ⟨start, stop⟩ ∧
      chart.find? piece labels = some tail := by
  induction size : words.length using Nat.strong_induction_on generalizing t pos words m with
  | _ size ih =>
      subst size
      cases words with
      | nil =>
          rw [through] at member
          obtain ⟨_, _, rfl⟩ := List.mem_map.1 member
          cases filled
      | cons word words =>
          rw [through] at member
          rcases List.mem_append.1 member with byWord | byGap
          · cases found : t.child? (.word word) with
            | none =>
                rw [found] at byWord
                cases byWord
            | some child =>
                rw [found] at byWord
                exact ih _ (Nat.lt_succ_self _) (by omega) (by simp at last ⊢; omega) byWord
                  filled rfl
          · obtain ⟨⟨labels, child⟩, _, byGap⟩ := List.mem_flatMap.1 byGap
            obtain ⟨more, narrow, byGap⟩ := List.mem_flatMap.1 byGap
            rw [List.mem_range] at narrow
            obtain ⟨inside, proper⟩ := piece_within first narrow
            rw [List.length_cons] at last
            rw [last] at inside proper
            have bound := inside.2
            dsimp only at bound byGap
            cases found : chart.find? ⟨pos, pos + more + 1⟩ labels with
            | none =>
                rw [found] at byGap
                cases byGap
            | some other =>
                rw [found] at byGap
                obtain ⟨rest, later_match, rfl⟩ := List.mem_map.1 byGap
                rcases List.mem_cons.1 filled with rfl | later
                · exact ⟨_, labels, inside, proper, found⟩
                · refine ih _ ?_ (by omega) ?_ later_match later rfl
                  · exact length_drop_lt
                  · rw [List.length_drop]
                    omega

section Listing

variable {pos : Nat} {word : WordId} {words : List WordId}

/-- The matches that begin with one branch of a node. -/
def along (chart : Chart) (start pos : Nat) (word : WordId) (words : List WordId)
    (branch : Step × Trie) : List Match :=
  match branch.1 with
  | .word id => if word = id then through chart start branch.2 (pos + 1) words else []
  | .gap labels =>
    (List.range (if pos = start then words.length else words.length + 1)).flatMap fun more =>
      match chart.find? ⟨pos, pos + more + 1⟩ labels with
      | some tail =>
        (through chart start branch.2 (pos + more + 1) (words.drop more)).map (withTail tail)
      | none => []

/-- Taking the word first and then the gaps visits every branch once. -/
theorem branches_perm {β : Type} {branches : List (Step × Trie)}
    (apart : (branches.map (·.1)).Nodup) (f : Trie → List β) (g : Labels × Trie → List β) :
    ((match branches.lookup (.word word) with
      | some child => f child
      | none => []) ++
      (branches.filterMap fun branch =>
        match branch.1 with
        | .word _ => none
        | .gap labels => some (labels, branch.2)).flatMap g).Perm
      (branches.flatMap fun branch =>
        match branch.1 with
        | .word id => if word = id then f branch.2 else []
        | .gap labels => g (labels, branch.2)) := by
  induction branches with
  | nil => exact .refl _
  | cons branch branches ih =>
      obtain ⟨step, child⟩ := branch
      obtain ⟨new, rest_apart⟩ := List.nodup_cons.1 apart
      cases step with
      | word id =>
          by_cases here : word = id
          · subst here
            have none_later : branches.lookup (.word word) = none := by
              rw [List.lookup_eq_none_iff]
              intro b member
              rw [bne_iff_ne]
              rintro same
              exact new (List.mem_map.2 ⟨b, member, same.symm⟩)
            have rest := ih rest_apart
            rw [none_later] at rest
            simpa using rest.append_left (f child)
          · have skip : ((.word id, child) :: branches).lookup (.word word) =
                branches.lookup (.word word) := by
              rw [List.lookup_cons, beq_eq_false_iff_ne.2]
              simpa using here
            simpa [skip, here] using ih rest_apart
      | gap labels =>
          have skip : ((.gap labels, child) :: branches).lookup (.word word) =
              branches.lookup (.word word) := by
            rw [List.lookup_cons, beq_eq_false_iff_ne.2]
            simp
          rw [skip]
          simp only [List.filterMap_cons, List.flatMap_cons]
          refine (List.perm_append_comm_assoc _ _ _).trans ?_
          exact (ih rest_apart).append_left _

theorem through_cons {t : Trie} (distinct : t.Distinct) :
    (through chart start t pos (word :: words)).Perm
      (t.branches.flatMap (along chart start pos word words)) := by
  rw [through]
  exact branches_perm (Trie.distinct_iff.1 distinct).1 _ _

@[simp] theorem flatMap_fun_nil {α β : Type} (as : List α) :
    as.flatMap (fun _ => ([] : List β)) = [] := List.flatMap_eq_nil_iff.2 fun _ _ => rfl

theorem flatMap_comm {α β γ : Type} (as : List α) (bs : List β) (f : α → β → List γ) :
    (as.flatMap fun a => bs.flatMap (f a)).Perm (bs.flatMap fun b => as.flatMap (f · b)) := by
  rw [← Multiset.coe_eq_coe]
  simp only [← Multiset.coe_bind]
  exact Multiset.bind_bind _ _

/-- The matches of a path and a rule, from the lists of tails. -/
def spelling (chart : Chart) (start pos : Nat) (words : List WordId) (x : List Step × Rule) :
    List Match := (fillings chart start pos words x.1).map (⟨x.2, ·⟩)

theorem spelling_nil (r : Rule) : spelling chart start pos [] ([], r) = [⟨r, []⟩] := rfl

theorem spelling_nil_cons (step : Step) (path : List Step) (r : Rule) :
    spelling chart start pos [] (step :: path, r) = [] := by
  cases step <;> rfl

theorem spelling_cons_nil (r : Rule) :
    spelling chart start pos (word :: words) ([], r) = [] := rfl

theorem spelling_word (id : WordId) (path : List Step) (r : Rule) :
    spelling chart start pos (word :: words) (.word id :: path, r) =
      if word = id then spelling chart start (pos + 1) words (path, r) else [] := by
  rw [spelling, fillings]
  split <;> rfl

theorem spelling_gap (labels : Labels) (path : List Step) (r : Rule) :
    spelling chart start pos (word :: words) (.gap labels :: path, r) =
      (List.range (if pos = start then words.length else words.length + 1)).flatMap fun more =>
        match chart.find? ⟨pos, pos + more + 1⟩ labels with
        | some tail =>
          (spelling chart start (pos + more + 1) (words.drop more) (path, r)).map (withTail tail)
        | none => [] := by
  rw [spelling, fillings, List.map_flatMap]
  refine List.flatMap_congr fun more _ => ?_
  cases chart.find? ⟨pos, pos + more + 1⟩ labels with
  | none => rfl
  | some tail => simp [spelling, withTail]

/-- The matches of a trie are those of all the rules that it lists. -/
theorem through_perm {t : Trie} (distinct : t.Distinct) :
    (through chart start t pos words).Perm
      (t.listing.flatMap (spelling chart start pos words)) := by
  induction size : words.length using Nat.strong_induction_on generalizing t pos words with
  | _ size ih =>
      subst size
      rw [Trie.listing_eq, List.flatMap_append, List.flatMap_map,
        Trie.listingBelow_eq_flatMap, List.flatMap_assoc]
      cases words with
      | nil =>
          simp only [List.flatMap_map, spelling_nil, spelling_nil_cons, flatMap_fun_nil,
            List.append_nil]
          rw [through, List.map_eq_flatMap]
      | cons word words =>
          simp only [spelling_cons_nil, flatMap_fun_nil, List.nil_append, List.flatMap_map]
          refine (through_cons distinct).trans (List.Perm.flatMap_left _ fun b member => ?_)
          have below := Trie.distinctBelow_iff.1 (Trie.distinct_iff.1 distinct).2 b member
          obtain ⟨step, child⟩ := b
          cases step with
          | word id =>
              by_cases same : word = id
              · have child_perm : (through chart start child (pos + 1) words).Perm _ :=
                  ih _ (Nat.lt_succ_self _) below rfl
                simpa [along, spelling_word, same] using child_perm
              · simp [along, spelling_word, same]
          | gap labels =>
              simp only [spelling_gap]
              refine List.Perm.trans ?_ (flatMap_comm child.listing _ _).symm
              refine List.Perm.flatMap_left _ fun more _ => ?_
              cases chart.find? ⟨pos, pos + more + 1⟩ labels with
              | none => simp
              | some tail =>
                  have child_perm :
                      (through chart start child (pos + more + 1) (words.drop more)).Perm _ :=
                    ih (words.drop more).length length_drop_lt below rfl
                  simpa [List.map_flatMap] using child_perm.map (withTail tail)

end Listing

end Match

end PackedForest
