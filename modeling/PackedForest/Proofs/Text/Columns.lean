import Mathlib.Algebra.GroupWithZero.Nat
import Mathlib.Algebra.Order.BigOperators.Group.List
import PackedForest.Proofs.Text.Words
import PackedForest.Text.Columns

/-!
# Columns and the marks between them

No piece between the marks of a text holds a mark (`Text.free_of_mem_columns`). In the other
direction, a character that is not in the mark keeps what stands before it apart from what follows:
the text holds a mark if one of the two does (`Text.mark_infix_iff`), and its pieces are those of
the two, with one piece welded together of the last of the first and the first of the second
(`Text.cut_weld`). So texts that are joined by marks with blanks around them are the columns of the
whole, if none of them holds a mark (`Text.map_words_columns_joined`), and otherwise the whole has
too many columns (`Text.length_columns_joined_iff`).
-/

namespace PackedForest.Text

variable {m : Char} {ms : List Char}

/-! ### Texts without a mark -/

section Apart

variable {mark : List Char} {c : Char} (absent : c ∉ mark)

include absent

theorem prefix_of_prefix_append (before : List Char) {after : List Char}
    (begins : mark <+: before ++ c :: after) : mark <+: before := by
  induction before generalizing mark with
  | nil =>
      cases mark with
      | nil => exact List.nil_prefix
      | cons d mark =>
          obtain ⟨rfl, -⟩ := List.cons_prefix_cons.1 begins
          exact absurd List.mem_cons_self absent
  | cons d before ih =>
      cases mark with
      | nil => exact List.nil_prefix
      | cons e mark =>
          obtain ⟨rfl, rest⟩ := List.cons_prefix_cons.1 begins
          exact List.cons_prefix_cons.2
            ⟨rfl, ih (fun inside => absent (List.mem_cons_of_mem _ inside)) rest⟩

/-- A mark does not reach over a character that it does not have. -/
theorem mark_infix_iff (nonempty : mark ≠ []) {before after : List Char} :
    mark <:+: before ++ c :: after ↔ mark <:+: before ∨ mark <:+: after := by
  induction before with
  | nil =>
      have elsewhere : ¬ mark <+: c :: after := fun begins =>
        nonempty (List.prefix_nil.1 (prefix_of_prefix_append absent [] begins))
      rw [List.nil_append, List.infix_cons_iff, List.infix_nil]
      simp only [elsewhere, nonempty, false_or]
  | cons d before ih =>
      rw [List.cons_append, List.infix_cons_iff, ih, List.infix_cons_iff, or_assoc]
      refine or_congr_left ⟨fun begins => ?_, fun begins => ?_⟩
      · exact prefix_of_prefix_append absent (d :: before) begins
      · exact begins.trans (List.prefix_append (d :: before) _)

theorem mark_infix_cons_iff (nonempty : mark ≠ []) {after : List Char} :
    mark <:+: c :: after ↔ mark <:+: after := by
  rw [← List.nil_append (c :: after), mark_infix_iff absent nonempty, List.infix_nil]
  exact or_iff_right nonempty

end Apart

/-- A text that has none of the characters of a mark does not hold it. -/
theorem not_infix_of_not_mem {mark cs : List Char} {c : Char} (inside : c ∈ mark)
    (absent : c ∉ cs) : ¬ mark <:+: cs := fun holds => absent (holds.subset inside)

/-! ### Pieces -/

theorem cut_ne_nil (cs : List Char) : cut m ms cs ≠ [] := by
  unfold cut
  split
  · simp
  · split
    · simp
    · split <;> simp

theorem cut_of_prefix {rest : List Char} : cut m ms (m :: ms ++ rest) = [] :: cut m ms rest := by
  have begins : (m :: ms).isPrefixOf (m :: (ms ++ rest)) = true :=
    List.isPrefixOf_iff_prefix.2 (List.prefix_append (m :: ms) rest)
  rw [List.cons_append, cut, if_pos begins, List.drop_left]

/-- A character where no mark begins goes to the first piece. -/
theorem cut_cons {c : Char} {cs piece : List Char} {pieces : List (List Char)}
    (elsewhere : ¬ m :: ms <+: c :: cs) (rest : cut m ms cs = piece :: pieces) :
    cut m ms (c :: cs) = (c :: piece) :: pieces := by
  rw [cut, if_neg (mt List.isPrefixOf_iff_prefix.1 elsewhere), rest]

/-- The first piece begins the text, the others stand in it, and none of them holds a mark. -/
theorem cut_pieces (m : Char) (ms cs : List Char) : ∃ piece pieces, cut m ms cs = piece :: pieces ∧
    piece <+: cs ∧ (∀ x ∈ pieces, x <:+: cs) ∧ ∀ x ∈ piece :: pieces, ¬ m :: ms <:+: x := by
  induction size : cs.length using Nat.strong_induction_on generalizing cs with
  | _ size ih =>
      subst size
      match cs with
      | [] => exact ⟨[], [], by rw [cut], List.nil_prefix, by simp, by simp⟩
      | c :: cs =>
          by_cases begins : m :: ms <+: c :: cs
          · obtain ⟨rest, parts⟩ := begins
            have shorter : rest.length < (c :: cs).length := by
              rw [← parts, List.length_append, List.length_cons]
              omega
            obtain ⟨piece, pieces, split, start, stand, free⟩ := ih _ shorter rest rfl
            have inside : ∀ {x}, x <:+: rest → x <:+: c :: cs := fun stands =>
              stands.trans ⟨m :: ms, [], by rw [List.append_nil, parts]⟩
            refine ⟨[], cut m ms rest, by rw [← parts, cut_of_prefix], List.nil_prefix, ?_, ?_⟩
            · rw [split]
              exact List.forall_mem_cons.2
                ⟨inside start.isInfix, fun x listed => inside (stand x listed)⟩
            · rw [split]
              exact List.forall_mem_cons.2 ⟨by simp, free⟩
          · obtain ⟨piece, pieces, split, start, stand, free⟩ := ih _ (Nat.lt_succ_self _) cs rfl
            obtain ⟨first, later⟩ := List.forall_mem_cons.1 free
            have start' : c :: piece <+: c :: cs := List.cons_prefix_cons.2 ⟨rfl, start⟩
            refine ⟨c :: piece, pieces, cut_cons begins split, start', ?_, ?_⟩
            · exact fun x listed => (stand x listed).trans (List.infix_cons (List.infix_refl _))
            · refine List.forall_mem_cons.2 ⟨fun holds => ?_, later⟩
              rcases List.infix_cons_iff.1 holds with here | inside
              · exact begins (here.trans start')
              · exact first inside

theorem cut_of_free {cs : List Char} (free : ¬ m :: ms <:+: cs) : cut m ms cs = [cs] := by
  induction cs with
  | nil => rw [cut]
  | cons c cs ih =>
      rw [List.infix_cons_iff, not_or] at free
      exact cut_cons free.1 (ih free.2)

theorem one_le_length_cut (cs : List Char) : 1 ≤ (cut m ms cs).length :=
  List.length_pos_of_ne_nil (cut_ne_nil cs)

theorem two_le_length_cut {cs : List Char} (holds : m :: ms <:+: cs) :
    2 ≤ (cut m ms cs).length := by
  induction cs with
  | nil => cases List.infix_nil.1 holds
  | cons c cs ih =>
      by_cases begins : m :: ms <+: c :: cs
      · obtain ⟨rest, parts⟩ := begins
        rw [← parts, cut_of_prefix, List.length_cons]
        exact Nat.succ_le_succ (one_le_length_cut rest)
      · have inside := (List.infix_cons_iff.1 holds).resolve_left begins
        obtain ⟨piece, pieces, split, -, -, -⟩ := cut_pieces m ms cs
        have enough := ih inside
        rw [split] at enough
        rwa [cut_cons begins split]

/-- Welds the last of some pieces and the first of some others together. -/
def weld (c : Char) : List (List Char) → List (List Char) → List (List Char)
  | [], later => later
  | [piece], [] => [piece ++ [c]]
  | [piece], next :: later => (piece ++ c :: next) :: later
  | piece :: piece' :: pieces, later => piece :: weld c (piece' :: pieces) later

theorem length_weld (c : Char) {pieces later : List (List Char)} (nonempty : pieces ≠ [])
    (nonempty' : later ≠ []) : (weld c pieces later).length + 1 = pieces.length + later.length := by
  induction pieces with
  | nil => exact absurd rfl nonempty
  | cons piece pieces ih =>
      cases pieces with
      | nil =>
          cases later with
          | nil => exact absurd rfl nonempty'
          | cons next later => simp [weld]; omega
      | cons piece' pieces =>
          have rest := ih (List.cons_ne_nil _ _)
          simp only [weld, List.length_cons] at rest ⊢
          omega

theorem weld_cons (c : Char) (piece : List Char) {pieces : List (List Char)}
    (nonempty : pieces ≠ []) (later : List (List Char)) :
    weld c (piece :: pieces) later = piece :: weld c pieces later := by
  cases pieces with
  | nil => exact absurd rfl nonempty
  | cons piece' pieces => rfl

/-- A character that is not in the mark parts a text without parting a mark. -/
theorem cut_weld {c : Char} (absent : c ∉ m :: ms) (before after : List Char) :
    cut m ms (before ++ c :: after) = weld c (cut m ms before) (cut m ms after) := by
  obtain ⟨next, later, after_split, -, -, -⟩ := cut_pieces m ms after
  induction size : before.length using Nat.strong_induction_on generalizing before with
  | _ size ih =>
      subst size
      match before with
      | [] =>
          have elsewhere : ¬ m :: ms <+: c :: after := fun begins =>
            List.cons_ne_nil _ _
              (List.prefix_nil.1 (prefix_of_prefix_append absent [] begins))
          have none_before : cut m ms [] = [[]] := by rw [cut]
          rw [List.nil_append, cut_cons elsewhere after_split, none_before, after_split]
          rfl
      | d :: before =>
          by_cases begins : m :: ms <+: d :: before
          · obtain ⟨rest, parts⟩ := begins
            have shorter : rest.length < (d :: before).length := by
              rw [← parts, List.length_append, List.length_cons]
              omega
            rw [← parts, List.append_assoc, cut_of_prefix, cut_of_prefix, ih _ shorter rest rfl,
              weld_cons c [] (cut_ne_nil rest)]
          · have elsewhere : ¬ m :: ms <+: d :: (before ++ c :: after) := fun longer =>
              begins (prefix_of_prefix_append absent (d :: before) longer)
            have rest := ih _ (Nat.lt_succ_self _) before rfl
            obtain ⟨piece, pieces, split, -, -, -⟩ := cut_pieces m ms before
            rw [cut_cons begins split]
            rw [split, after_split] at rest
            rw [List.cons_append, after_split]
            cases pieces with
            | nil => exact cut_cons elsewhere rest
            | cons piece' pieces =>
                rw [weld_cons c _ (List.cons_ne_nil _ _)] at rest ⊢
                exact cut_cons elsewhere rest

theorem cut_cons_apart {c : Char} (absent : c ∉ m :: ms) {cs piece : List Char}
    {pieces : List (List Char)} (rest : cut m ms cs = piece :: pieces) :
    cut m ms (c :: cs) = (c :: piece) :: pieces := by
  refine cut_cons (fun begins => ?_) rest
  obtain ⟨rfl, -⟩ := List.cons_prefix_cons.1 begins
  exact absent List.mem_cons_self

/-- A text without a mark and a character that parts it from the mark are the first piece. -/
theorem cut_append_mark {c : Char} (absent : c ∉ m :: ms) {before : List Char}
    (free : ¬ m :: ms <:+: before) (after : List Char) :
    cut m ms (before ++ c :: (m :: ms ++ after)) = (before ++ [c]) :: cut m ms after := by
  rw [cut_weld absent, cut_of_free free, cut_of_prefix]
  rfl

/-! ### Columns -/

theorem mem_trimRest {pieces : List (List Char)} {column : List Char}
    (listed : column ∈ trimRest pieces) : ∃ piece ∈ pieces, column <:+: piece := by
  induction pieces with
  | nil => cases listed
  | cons piece pieces ih =>
      cases pieces with
      | nil =>
          obtain rfl := List.mem_singleton.1 listed
          exact ⟨piece, List.mem_cons_self, trimStart_isInfix piece⟩
      | cons piece' pieces =>
          rcases List.mem_cons.1 listed with rfl | later
          · exact ⟨piece, List.mem_cons_self, trim_isInfix piece⟩
          · obtain ⟨whole, inside, stands⟩ := ih later
            exact ⟨whole, List.mem_cons_of_mem _ inside, stands⟩

/-- A column stands in a piece. -/
theorem mem_columns {cs column : List Char} (listed : column ∈ columns m ms cs) :
    ∃ piece ∈ cut m ms cs, column <:+: piece := by
  unfold columns at listed
  cases pieces : cut m ms cs with
  | nil => exact absurd pieces (cut_ne_nil cs)
  | cons piece later =>
      rw [pieces] at listed
      cases later with
      | nil => exact ⟨column, listed, List.infix_refl _⟩
      | cons piece' later =>
          rcases List.mem_cons.1 listed with rfl | rest
          · exact ⟨piece, List.mem_cons_self, trimEnd_isInfix piece⟩
          · obtain ⟨whole, inside, stands⟩ := mem_trimRest rest
            exact ⟨whole, List.mem_cons_of_mem _ inside, stands⟩

theorem free_of_mem_columns {cs column : List Char} (listed : column ∈ columns m ms cs) :
    ¬ m :: ms <:+: column := by
  obtain ⟨piece, inside, stands⟩ := mem_columns listed
  obtain ⟨first, later, split, -, -, free⟩ := cut_pieces m ms cs
  exact fun holds => free piece (split ▸ inside) (holds.trans stands)

theorem infix_of_mem_columns {cs column : List Char} (listed : column ∈ columns m ms cs) :
    column <:+: cs := by
  obtain ⟨piece, inside, stands⟩ := mem_columns listed
  obtain ⟨first, later, split, begins, stand, -⟩ := cut_pieces m ms cs
  rw [split] at inside
  rcases List.mem_cons.1 inside with rfl | rest
  · exact stands.trans begins.isInfix
  · exact stands.trans (stand piece rest)

theorem map_words_trimRest (pieces : List (List Char)) :
    (trimRest pieces).map words = pieces.map words := by
  induction pieces with
  | nil => rfl
  | cons piece pieces ih =>
      cases pieces with
      | nil => exact congrArg (fun x => [x]) (words_trimStart piece)
      | cons piece' pieces => exact List.cons_eq_cons.2 ⟨words_trim piece, ih⟩

theorem map_words_columns (m : Char) (ms cs : List Char) :
    (columns m ms cs).map words = (cut m ms cs).map words := by
  rw [columns]
  match cut m ms cs with
  | [] => rfl
  | [piece] => rfl
  | piece :: piece' :: pieces =>
      exact List.cons_eq_cons.2 ⟨words_trimEnd piece, map_words_trimRest (piece' :: pieces)⟩

theorem length_columns (cs : List Char) :
    (columns m ms cs).length = (cut m ms cs).length := by
  simpa using congrArg List.length (map_words_columns m ms cs)

/-! ### Texts that are joined by marks -/

section Joined

/-- Texts with a mark, and a blank on both its sides, between each two. -/
def joined (m : Char) (ms : List Char) (sides : List (List Char)) : List Char :=
  (' ' :: (m :: ms ++ [' '])).intercalate sides

theorem joined_cons (side : List Char) {sides : List (List Char)} (nonempty : sides ≠ []) :
    joined m ms (side :: sides) = side ++ ' ' :: (m :: ms ++ ' ' :: joined m ms sides) := by
  obtain ⟨side', sides, rfl⟩ := List.exists_cons_of_ne_nil nonempty
  rw [joined, List.intercalate_cons_cons, ← joined]
  simp

/-- The join of texts holds another mark only if that holds it or one of them does. -/
theorem not_infix_joined {mark : List Char} (absent : ' ' ∉ mark) (nonempty : mark ≠ [])
    (other : ¬ mark <:+: m :: ms) {sides : List (List Char)} (sides_ne_nil : sides ≠ [])
    (free : ∀ side ∈ sides, ¬ mark <:+: side) : ¬ mark <:+: joined m ms sides := by
  induction sides with
  | nil => exact absurd rfl sides_ne_nil
  | cons side sides ih =>
      obtain ⟨first, later⟩ := List.forall_mem_cons.1 free
      by_cases last : sides = []
      · subst last
        rwa [joined, List.intercalate_singleton]
      · rw [joined_cons side last, mark_infix_iff absent nonempty, mark_infix_iff absent nonempty]
        exact not_or.2 ⟨first, not_or.2 ⟨other, ih last later⟩⟩

variable (apart : ' ' ∉ m :: ms)

include apart

/-- Texts that hold no mark are the columns of their join, up to blanks. -/
theorem map_words_columns_joined {sides : List (List Char)} (nonempty : sides ≠ [])
    (free : ∀ side ∈ sides, ¬ m :: ms <:+: side) :
    (columns m ms (joined m ms sides)).map words = sides.map words := by
  rw [map_words_columns]
  induction sides with
  | nil => exact absurd rfl nonempty
  | cons side sides ih =>
      obtain ⟨first, later⟩ := List.forall_mem_cons.1 free
      by_cases last : sides = []
      · subst last
        rw [joined, List.intercalate_singleton, cut_of_free first]
      · have rest := ih last later
        obtain ⟨piece, pieces, split, -, -, -⟩ := cut_pieces m ms
          (joined m ms sides)
        rw [joined_cons side last, cut_append_mark apart first, cut_cons_apart apart split]
        rw [split] at rest
        rw [List.map_cons, List.map_cons, words_cons_blank rfl, ← List.map_cons, rest,
          words_append_blank rfl, words_nil, List.append_nil, List.map_cons]

theorem length_cut_joined {sides : List (List Char)} (nonempty : sides ≠ []) :
    (cut m ms (joined m ms sides)).length =
      (sides.map fun side => (cut m ms side).length).sum := by
  induction sides with
  | nil => exact absurd rfl nonempty
  | cons side sides ih =>
      by_cases last : sides = []
      · subst last
        simp [joined, List.intercalate_singleton]
      · obtain ⟨piece, pieces, split, -, -, -⟩ := cut_pieces m ms
          (joined m ms sides)
        have welded := length_weld ' ' (cut_ne_nil side : cut m ms side ≠ [])
          (List.cons_ne_nil [] ((' ' :: piece) :: pieces))
        rw [joined_cons side last, cut_weld apart, cut_of_prefix, cut_cons_apart apart split,
          List.map_cons, List.sum_cons, ← ih last, split]
        simp only [List.length_cons] at welded ⊢
        omega

/-- Where one of the texts holds a mark, their join has too many columns. -/
theorem length_columns_joined_iff {sides : List (List Char)} (nonempty : sides ≠ []) :
    (columns m ms (joined m ms sides)).length = sides.length ↔
      ∀ side ∈ sides, ¬ m :: ms <:+: side := by
  constructor
  · intro same side listed holds
    obtain ⟨before, after, rfl⟩ := List.append_of_mem listed
    have some_piece : ∀ sides : List (List Char),
        sides.length ≤ (sides.map fun side => (cut m ms side).length).sum := by
      intro sides
      rw [← List.length_map (fun side => (cut m ms side).length)]
      refine List.length_le_sum_of_one_le _ fun count counted => ?_
      obtain ⟨side, -, rfl⟩ := List.mem_map.1 counted
      exact one_le_length_cut side
    have two := two_le_length_cut holds
    have some_before := some_piece before
    have some_after := some_piece after
    rw [length_columns, length_cut_joined apart nonempty, List.map_append, List.map_cons,
      List.sum_append, List.sum_cons, List.length_append, List.length_cons] at same
    omega
  · intro free
    simpa using congrArg List.length (map_words_columns_joined apart nonempty free)

end Joined

end PackedForest.Text
