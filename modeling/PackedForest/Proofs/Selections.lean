import Mathlib.Algebra.BigOperators.Group.List.Basic
import Mathlib.Data.List.Nodup
import PackedForest.Proofs.Related
import PackedForest.Selections

/-!
# Truncated selections

There is a pick for each way to choose, none comes twice, and their number is the product of the
numbers of alternatives. The place of a pick, written with these numbers as radices, has the places
of its alternatives as digits; the first list has the digit of the ones.

The first picks are the same if each list of alternatives is cut down to as many: the pick from
the first list changes fastest, so no pick that is among the first needs a later alternative.
-/

namespace PackedForest

/-- The first elements of two lists in a row depend on the first elements of each only. -/
theorem take_append_congr {α : Type} {n : Nat} {as as' bs bs' : List α}
    (first : as.take n = as'.take n) (second : bs.take n = bs'.take n) :
    (as ++ bs).take n = (as' ++ bs').take n := by
  have cut : ∀ as bs : List α, (as ++ bs).take n = (as.take n ++ bs.take n).take n := by
    intro as bs
    rw [List.take_append, List.take_append, List.take_take, Nat.min_self, List.take_take,
      List.length_take]
    congr 2
    omega
  rw [cut, first, second, ← cut]

theorem take_flatMap_congr {α β : Type} {n : Nat} {as : List α} {f g : α → List β}
    (same : ∀ a ∈ as, (f a).take n = (g a).take n) :
    (as.flatMap f).take n = (as.flatMap g).take n := by
  induction as with
  | nil => rfl
  | cons a as ih =>
      rw [List.flatMap_cons, List.flatMap_cons]
      exact take_append_congr (same a List.mem_cons_self)
        (ih fun b later => same b (List.mem_cons_of_mem _ later))

/-- Where every element gives something, the first results come from as many elements. -/
theorem take_flatMap_take {α β : Type} {as : List α} {f : α → List β}
    (some_each : ∀ a ∈ as, f a ≠ []) (n : Nat) :
    ((as.take n).flatMap f).take n = (as.flatMap f).take n := by
  induction as generalizing n with
  | nil => rw [List.take_nil]
  | cons a as ih =>
      cases n with
      | zero => rw [List.take_zero, List.take_zero]
      | succ n =>
          rw [List.take_succ_cons, List.flatMap_cons, List.flatMap_cons, List.take_append,
            List.take_append]
          congr 1
          have some_here := List.length_pos_iff.2 (some_each a List.mem_cons_self)
          have rest := ih (fun b later => some_each b (List.mem_cons_of_mem _ later)) n
          have fewer : n + 1 - (f a).length ≤ n := by omega
          have cut := congrArg (List.take (n + 1 - (f a).length)) rest
          rwa [List.take_take, List.take_take, Nat.min_eq_left fewer] at cut

/-- Results that are appended while there is room are the first of all results. -/
theorem foldl_append_take {α β : Type} {limit : Nat} (f : α → List β) (as : List α)
    {found : List β} (few : found.length ≤ limit) :
    as.foldl (fun found a => if limit ≤ found.length then found
      else found ++ (f a).take (limit - found.length)) found =
      (found ++ as.flatMap f).take limit := by
  induction as generalizing found with
  | nil => rw [List.foldl_nil, List.flatMap_nil, List.append_nil, List.take_of_length_le few]
  | cons a as ih =>
      have step : (if limit ≤ found.length then found
          else found ++ (f a).take (limit - found.length)) = (found ++ f a).take limit := by
        rw [List.take_append, List.take_of_length_le few]
        split
        · next full => rw [Nat.sub_eq_zero_of_le full, List.take_zero, List.append_nil]
        · rfl
      rw [List.foldl_cons, step, ih (List.length_take_le ..), List.flatMap_cons,
        ← List.append_assoc]
      exact take_append_congr (by rw [List.take_take, Nat.min_self]) rfl

/-- In blocks of one size, a place tells its block and the place within the block. -/
theorem getElem?_flatMap_blocks {α β : Type} {as : List α} {f : α → List β} {size : Nat}
    (positive : 0 < size) (blocks : ∀ a ∈ as, (f a).length = size) (k : Nat) :
    (as.flatMap f)[k]? = as[k / size]?.bind fun a => (f a)[k % size]? := by
  induction as generalizing k with
  | nil => rfl
  | cons a as ih =>
      have first := blocks a List.mem_cons_self
      have later := ih fun b listed => blocks b (List.mem_cons_of_mem _ listed)
      rw [List.flatMap_cons, List.getElem?_append, first]
      split
      · next inside =>
          rw [Nat.div_eq_of_lt inside, Nat.mod_eq_of_lt inside]
          rfl
      · next beyond =>
          obtain ⟨rest, rfl⟩ := Nat.exists_eq_add_of_le (Nat.le_of_not_lt beyond)
          rw [Nat.add_sub_cancel_left, later, Nat.add_mod_left, Nat.add_div_left _ positive]
          rfl

theorem picks_cons {α : Type} (alternatives : List α) (lists : List (List α)) :
    picks (alternatives :: lists) =
      (picks lists).flatMap fun pick => alternatives.map (· :: pick) := rfl

theorem selections_of_ne_nil {α : Type} {lists : List (List α)} (nonempty : lists ≠ []) :
    selections lists = picks lists := by
  cases lists with
  | nil => exact absurd rfl nonempty
  | cons => rfl

section Picks

variable {α : Type}

theorem length_picks (lists : List (List α)) :
    (picks lists).length = (lists.map List.length).prod := by
  induction lists with
  | nil => rfl
  | cons alternatives lists ih =>
      simp only [picks_cons, List.length_flatMap, List.length_map, List.map_const',
        List.map_cons, List.prod_cons, ih]
      rw [List.sum_replicate_nat, Nat.mul_comm]

theorem mem_picks {lists : List (List α)} {pick : List α} :
    pick ∈ picks lists ↔ List.Forall₂ (fun alternatives a => a ∈ alternatives) lists pick := by
  induction lists generalizing pick with
  | nil => simp [picks]
  | cons alternatives lists ih =>
      rw [picks_cons, List.mem_flatMap, List.forall₂_cons_left_iff]
      constructor
      · rintro ⟨rest, picked, listed⟩
        obtain ⟨a, member, rfl⟩ := List.mem_map.1 listed
        exact ⟨a, rest, member, ih.1 picked, rfl⟩
      · rintro ⟨a, rest, member, picked, rfl⟩
        exact ⟨rest, ih.2 picked, List.mem_map_of_mem member⟩

theorem nodup_picks {lists : List (List α)} (distinct : ∀ alternatives ∈ lists,
    alternatives.Nodup) : (picks lists).Nodup := by
  induction lists with
  | nil => exact List.nodup_singleton []
  | cons alternatives lists ih =>
      rw [picks_cons, List.nodup_flatMap]
      have rest := ih fun other later => distinct other (List.mem_cons_of_mem _ later)
      refine ⟨fun pick _ => ?_, rest.imp fun {pick other} differ => ?_⟩
      · exact (distinct _ List.mem_cons_self).map fun a b same => (List.cons.inj same).1
      · intro x here there
        obtain ⟨a, -, rfl⟩ := List.mem_map.1 here
        obtain ⟨b, -, same⟩ := List.mem_map.1 there
        exact differ (List.cons.inj same).2.symm

theorem picks_map {β : Type} (f : α → β) (lists : List (List α)) :
    picks (lists.map (List.map f)) = (picks lists).map (List.map f) := by
  induction lists with
  | nil => rfl
  | cons alternatives lists ih =>
      simp only [List.map_cons, picks_cons, ih, List.flatMap_map, List.map_flatMap,
        List.map_map]
      rfl

/-- Where alternatives correspond, so do the picks. -/
theorem forall₂_picks {β : Type} {V : α → β → Prop} {lists : List (List α)}
    {lists' : List (List β)} (alternatives : List.Forall₂ (List.Forall₂ V) lists lists') :
    List.Forall₂ (List.Forall₂ V) (picks lists) (picks lists') := by
  induction alternatives with
  | nil => exact .cons .nil .nil
  | cons first _ ih =>
      rw [picks_cons, picks_cons]
      refine List.rel_flatMap ih fun pick pick' picked => ?_
      rw [List.forall₂_map_left_iff, List.forall₂_map_right_iff]
      exact first.imp fun a b value => .cons value picked

theorem forall₂_selections {β : Type} {V : α → β → Prop} {lists : List (List α)}
    {lists' : List (List β)} (alternatives : List.Forall₂ (List.Forall₂ V) lists lists') :
    List.Forall₂ (List.Forall₂ V) (selections lists) (selections lists') := by
  cases alternatives with
  | nil => exact .nil
  | cons first rest => exact forall₂_picks (.cons first rest)

/-- The first picks stay the same where each list keeps at least as many alternatives. -/
theorem take_picks_map_take {n m : Nat} (fewer : n ≤ m) (lists : List (List α)) :
    (picks (lists.map (List.take m))).take n = (picks lists).take n := by
  induction lists with
  | nil => rfl
  | cons alternatives lists ih =>
      rw [List.map_cons, picks_cons, picks_cons]
      rcases Nat.eq_zero_or_pos n with rfl | positive
      · rw [List.take_zero, List.take_zero]
      by_cases none : alternatives = []
      · subst none
        have nothing : ∀ rest : List (List α),
            (rest.flatMap fun pick => ([] : List α).map (· :: pick)) = [] := fun rest =>
          List.flatMap_eq_nil_iff.2 fun _ _ => rfl
        rw [List.take_nil, nothing, nothing]
      have some_left : alternatives.take m ≠ [] := by
        rw [Ne, List.take_eq_nil_iff]
        exact not_or.2 ⟨by omega, none⟩
      calc ((picks (lists.map (List.take m))).flatMap
              fun pick => (alternatives.take m).map (· :: pick)).take n
          = (((picks (lists.map (List.take m))).take n).flatMap
              fun pick => (alternatives.take m).map (· :: pick)).take n :=
            (take_flatMap_take (fun _ _ => by simpa using some_left) n).symm
        _ = (((picks lists).take n).flatMap
              fun pick => (alternatives.take m).map (· :: pick)).take n := by rw [ih]
        _ = ((picks lists).flatMap fun pick => (alternatives.take m).map (· :: pick)).take n :=
            take_flatMap_take (fun _ _ => by simpa using some_left) n
        _ = ((picks lists).flatMap fun pick => alternatives.map (· :: pick)).take n := by
            refine take_flatMap_congr fun pick _ => ?_
            rw [List.map_take, List.take_take, Nat.min_eq_left fewer]

theorem getElem?_picks_cons {alternatives : List α} (some_left : 0 < alternatives.length)
    (lists : List (List α)) (k : Nat) : (picks (alternatives :: lists))[k]? =
      (picks lists)[k / alternatives.length]?.bind fun pick =>
        alternatives[k % alternatives.length]?.map (· :: pick) := by
  rw [picks_cons, getElem?_flatMap_blocks some_left fun pick _ => List.length_map _]
  simp only [List.getElem?_map]

/-- The pick at a place takes from each list the alternative at the digit of that list, where the
sizes of the lists are the radices of the digits and the first digit counts ones. -/
theorem exists_pick_at (lists : List (List α)) {k : Nat}
    (inside : k < (lists.map List.length).prod) :
    ∃ pick, (picks lists)[k]? = some pick ∧ pick.length = lists.length ∧
      ∀ i (slot : i < lists.length), pick[i]? =
        lists[i][k / ((lists.take i).map List.length).prod % lists[i].length]? := by
  induction lists generalizing k with
  | nil =>
      obtain rfl : k = 0 := Nat.lt_one_iff.1 inside
      exact ⟨[], rfl, rfl, fun i slot => absurd slot (Nat.not_lt_zero i)⟩
  | cons alternatives lists ih =>
      rw [List.map_cons, List.prod_cons] at inside
      have some_left : 0 < alternatives.length :=
        Nat.pos_of_mul_pos_right (Nat.zero_lt_of_lt inside)
      obtain ⟨pick, here, length, slots⟩ := ih (Nat.div_lt_of_lt_mul inside)
      have digit : k % alternatives.length < alternatives.length := Nat.mod_lt k some_left
      refine ⟨alternatives[k % alternatives.length] :: pick, ?_, congrArg (· + 1) length, ?_⟩
      · rw [getElem?_picks_cons some_left, here, List.getElem?_eq_getElem digit]
        rfl
      · intro i slot
        cases i with
        | zero => simp [digit]
        | succ i =>
            have place : k / ((List.take (i + 1) (alternatives :: lists)).map List.length).prod =
                k / alternatives.length / ((lists.take i).map List.length).prod := by
              rw [List.take_succ_cons, List.map_cons, List.prod_cons, Nat.div_div_eq_div_mul]
            rw [place]
            exact slots i (Nat.lt_of_succ_lt_succ slot)

theorem picks_eq_nil_iff {lists : List (List α)} : picks lists = [] ↔ [] ∈ lists := by
  induction lists with
  | nil => simp [picks]
  | cons alternatives lists ih =>
      rw [picks_cons, List.flatMap_eq_nil_iff, List.mem_cons, ← ih, List.eq_nil_iff_forall_not_mem]
      simp only [List.map_eq_nil_iff]
      constructor
      · intro each
        by_cases none : alternatives = []
        · exact .inl none.symm
        · exact .inr fun pick picked => none (each pick picked)
      · rintro (rfl | empty) pick picked
        · rfl
        · exact absurd picked (empty pick)

/-- The selections from one or more lists are all picks in their order: there are as many as the
product of the lengths, the one at a place has the alternatives at its digits, and there are none
if and only if some list leaves nothing to pick. -/
theorem selections_ordered {lists : List (List α)} (nonempty : lists ≠ []) :
    (selections lists).length = (lists.map List.length).prod ∧
    (∀ k < (lists.map List.length).prod, ∃ pick, (selections lists)[k]? = some pick ∧
      pick.length = lists.length ∧ ∀ i (slot : i < lists.length), pick[i]? =
        lists[i][k / ((lists.take i).map List.length).prod % lists[i].length]?) ∧
    (selections lists = [] ↔ [] ∈ lists) := by
  rw [selections_of_ne_nil nonempty]
  exact ⟨length_picks lists, fun k inside => exists_pick_at lists inside, picks_eq_nil_iff⟩

/-- Of three lists of two, one and three, the fifth pick has the alternatives 0, 0 and 2. -/
theorem selections_ordered_three :
    [["a", "b"], ["c"], ["d", "e", "f"]] ≠ [] ∧
    (selections [["a", "b"], ["c"], ["d", "e", "f"]]).length = 6 ∧
    (selections [["a", "b"], ["c"], ["d", "e", "f"]])[4]? = some ["a", "c", "f"] := by
  have nonempty : [["a", "b"], ["c"], ["d", "e", "f"]] ≠ [] := List.cons_ne_nil _ _
  obtain ⟨length, places, -⟩ := selections_ordered nonempty
  refine ⟨nonempty, length, ?_⟩
  obtain ⟨pick, here, three, slots⟩ := places 4 (by decide)
  rw [here]
  refine congrArg some (List.ext_getElem? fun i => ?_)
  match i with
  | 0 => exact slots 0 (by decide)
  | 1 => exact slots 1 (by decide)
  | 2 => exact slots 2 (by decide)
  | i + 3 => simp [three]

end Picks

end PackedForest
