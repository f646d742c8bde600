import PackedForest.Proofs.Trie.Index

/-!
# Finding a branch by halving

The branches of a node for words are listed in increasing order, and no word has two of them. So a
branch can be found by halving the places where it may stand, and this finds the same one as going
through all branches does (`Distinct.searchWord_eq`).
-/

namespace PackedForest.Trie

theorem pairwise_wordBranches (t : Trie) :
    (t.wordBranches.map (·.1)).Pairwise (· ≤ ·) := by
  rw [List.pairwise_map]
  have order : t.wordBranches.Pairwise fun a b => decide (a.1 ≤ b.1) = true :=
    List.pairwise_mergeSort (fun a b c => by simpa using Int.le_trans)
      (fun a b => by simpa using Int.le_total ..) _
  exact order.imp of_decide_eq_true

/-- The words of the branches increase strictly, as no two branches of the node share a step. -/
theorem Distinct.increasing {t : Trie} (distinct : t.Distinct) :
    (t.wordBranches.map (·.1)).Pairwise (· < ·) := by
  have apart : (t.wordBranches.map (·.1)).Nodup := by
    rw [wordBranches, ((List.mergeSort_perm _ _).map _).nodup_iff, List.Nodup, List.pairwise_map,
      List.pairwise_filterMap]
    refine (List.pairwise_map.1 (distinct_iff.1 distinct).1).imp ?_
    rintro ⟨step, _⟩ ⟨step', _⟩ other x first y second
    cases step with
    | gap labels => cases first
    | word id =>
        cases step' with
        | gap labels => cases second
        | word id' =>
            cases first
            cases second
            exact fun same => other (congrArg Step.word same)
  refine ((t.pairwise_wordBranches).and apart).imp ?_
  exact fun both => Int.lt_iff_le_and_ne.2 both

/-- Of as many places as `size`, from `base` on, the last one whose word does not come after the
wanted one, if there is one. Half of the places are left out each time. -/
def halve (words : List WordId) (word : WordId) (base size : Nat) : Nat :=
  if size ≤ 1 then base
  else if words[base + size / 2]?.any (word < ·) then halve words word base (size - size / 2)
  else halve words word (base + size / 2) (size - size / 2)
termination_by size

/-- The branch for a word, found by halving. -/
def searchWord (t : Trie) (word : WordId) : Option Trie :=
  (t.wordBranches[halve (t.wordBranches.map (·.1)) word 0 t.wordBranches.length]?).bind fun b =>
    if b.1 = word then some b.2 else none

/-- A place that is among those left stays among them. -/
theorem halve_eq {words : List WordId} {word : WordId} {base size i : Nat}
    (increasing : words.Pairwise (· < ·)) (bounded : base + size ≤ words.length)
    (here : words[i]? = some word) (above : base ≤ i) (below : i < base + size) :
    halve words word base size = i := by
  have order : ∀ {j k : Nat} {a b : WordId}, words[j]? = some a → words[k]? = some b → j < k →
      a < b := by
    intro j k a b first second before
    obtain ⟨inside, rfl⟩ := List.getElem?_eq_some_iff.1 first
    obtain ⟨inside', rfl⟩ := List.getElem?_eq_some_iff.1 second
    exact List.pairwise_iff_getElem.1 increasing j k inside inside' before
  fun_induction halve words word base size with
  | case1 base size few => omega
  | case2 base size many later ih =>
      obtain ⟨other, there, after⟩ := (Option.any_eq_true _ _).1 later
      have before : i < base + size / 2 := by
        rcases Nat.lt_trichotomy i (base + size / 2) with before | same | past
        · exact before
        · rw [same, there] at here
          cases here
          exact absurd (of_decide_eq_true after) (Int.lt_irrefl _)
        · exact absurd (order there here past) (Int.lt_asymm (of_decide_eq_true after))
      exact ih (by omega) above (by omega)
  | case3 base size many notLater ih =>
      have inside : base + size / 2 < words.length := by omega
      rw [List.getElem?_eq_getElem inside, Option.any_some, decide_eq_true_eq] at notLater
      have past : base + size / 2 ≤ i := Nat.le_of_not_lt fun before =>
        notLater (order here (List.getElem?_eq_getElem inside) before)
      exact ih (by omega) past (by omega)

/-- Halving finds the branch of a word, and finds none if there is none. -/
theorem Distinct.searchWord_eq {t : Trie} (distinct : t.Distinct) (word : WordId) :
    t.searchWord word = t.child? (.word word) := by
  cases branch : t.child? (.word word) with
  | some child =>
      have listed := mem_wordBranches.2 (mem_of_child? branch)
      obtain ⟨i, here⟩ := List.mem_iff_getElem?.1 listed
      have place : halve (t.wordBranches.map (·.1)) word 0 t.wordBranches.length = i := by
        have inside := (List.getElem?_eq_some_iff.1 here).1
        refine halve_eq distinct.increasing (by simp) ?_ (Nat.zero_le i) (by omega)
        rw [List.getElem?_map, here]
        rfl
      rw [searchWord, place, here]
      exact if_pos rfl
  | none =>
      rw [searchWord, Option.bind_eq_none_iff]
      intro b here
      refine if_neg ?_
      rintro rfl
      have member := mem_wordBranches.1 (List.mem_of_getElem? here)
      rw [child?, lookup_of_mem (distinct_iff.1 distinct).1 member] at branch
      cases branch

theorem Distinct.searchWord_eq_some_iff {t child : Trie} (distinct : t.Distinct) {word : WordId} :
    t.searchWord word = some child ↔ (word, child) ∈ t.wordBranches := by
  rw [distinct.searchWord_eq, mem_wordBranches]
  exact ⟨mem_of_child?, lookup_of_mem (distinct_iff.1 distinct).1⟩

end PackedForest.Trie
