import Mathlib.Algebra.Order.BigOperators.Group.List
import Mathlib.Algebra.Order.Ring.Nat
import Mathlib.Data.List.Perm.Subperm
import Mathlib.Data.Nat.Choose.Basic
import PackedForest.Proofs.Parser.Choices

/-!
# Counting the cuts of a rule

In a cut that a rule fits, the piece of a word is one position wide, so the cut is told by the
widths of its gaps alone. These are an ordered sum of positive numbers, which comes to the width of
the span without the words. `compositions` lists such sums, and a binomial coefficient counts them
(`length_compositions`).

So a rule has no more uses over a span than there are such sums (`Rule.length_cutUses_le`), however
many nodes and edges there are below.
-/

namespace PackedForest

/-- If each entry makes no more than so many, all of them make no more than so many times more. -/
theorem length_flatMap_le {α β : Type} {as : List α} {f : α → List β} {bound : Nat}
    (few : ∀ a ∈ as, (f a).length ≤ bound) : (as.flatMap f).length ≤ as.length * bound := by
  rw [List.length_flatMap]
  have sizes := List.sum_le_card_nsmul (as.map fun a => (f a).length) bound
    (List.forall_mem_map.2 few)
  rwa [List.length_map, Nat.nsmul_eq_mul] at sizes

/-- The ordered sums of so many positive numbers, those with a smaller first number first. -/
def compositions : (count total : Nat) → List (List Nat)
  | 0, total => if total = 0 then [[]] else []
  | count + 1, total =>
    (List.range total).flatMap fun less =>
      (compositions count (total - (less + 1))).map ((less + 1) :: ·)

theorem mem_compositions {count total : Nat} {parts : List Nat} :
    parts ∈ compositions count total ↔
      parts.length = count ∧ parts.sum = total ∧ ∀ part ∈ parts, 0 < part := by
  induction count generalizing total parts with
  | zero =>
      rw [compositions, List.length_eq_zero_iff]
      constructor
      · intro listed
        split at listed
        · next none_left =>
            obtain rfl := List.mem_singleton.1 listed
            exact ⟨rfl, none_left.symm, by simp⟩
        · cases listed
      · rintro ⟨rfl, rfl, -⟩
        exact List.mem_singleton_self _
  | succ count ih =>
      simp only [compositions, List.mem_flatMap, List.mem_range, List.mem_map, ih]
      constructor
      · rintro ⟨less, fits, parts, ⟨length, sum, positive⟩, rfl⟩
        refine ⟨congrArg (· + 1) length, ?_, ?_⟩
        · rw [List.sum_cons]
          omega
        · exact List.forall_mem_cons.2 ⟨Nat.succ_pos less, positive⟩
      · rintro ⟨length, sum, positive⟩
        cases parts with
        | nil => cases length
        | cons part parts =>
            obtain ⟨here, later⟩ := List.forall_mem_cons.1 positive
            obtain ⟨less, rfl⟩ := Nat.exists_eq_succ_of_ne_zero (Nat.ne_of_gt here)
            rw [List.sum_cons] at sum
            exact ⟨less, by omega, parts, ⟨Nat.succ.inj length, by omega, later⟩, rfl⟩

/-- The first number is one, or one more than the first number of a sum of one less. -/
theorem length_compositions_succ (count total : Nat) :
    (compositions (count + 1) (total + 1)).length =
      (compositions count total).length + (compositions (count + 1) total).length := by
  simp only [compositions, List.length_flatMap, List.length_map, List.range_succ_eq_map,
    List.map_cons, List.map_map, List.sum_cons, Function.comp_def, Nat.add_sub_add_right,
    Nat.sub_zero, Nat.succ_eq_add_one]

theorem length_compositions_choose (count total : Nat) :
    (compositions (count + 1) (total + 1)).length = total.choose count := by
  induction total generalizing count with
  | zero =>
      rw [length_compositions_succ]
      cases count <;> rfl
  | succ total ih =>
      rw [length_compositions_succ, ih]
      cases count with
      | zero => simp [compositions]
      | succ count => rw [ih, Nat.choose_succ_succ]

/-- The number of ordered sums in closed form. -/
theorem length_compositions (count total : Nat) : (compositions count total).length =
    if count = 0 then if total = 0 then 1 else 0
    else if count ≤ total then (total - 1).choose (count - 1) else 0 := by
  cases count with
  | zero =>
      rw [compositions, if_pos rfl]
      split <;> rfl
  | succ count =>
      rw [if_neg (Nat.succ_ne_zero count)]
      cases total with
      | zero => rfl
      | succ total =>
          rw [length_compositions_choose, Nat.add_sub_cancel, Nat.add_sub_cancel]
          split
          · rfl
          · next few => exact Nat.choose_eq_zero_of_lt (by omega)

/-- Four positions make three sums of two numbers. -/
example : compositions 2 4 = [[1, 3], [2, 2], [3, 1]] := by decide

theorem length_compositions_le (count total : Nat) :
    (compositions count total).length ≤ total ^ count := by
  induction count generalizing total with
  | zero =>
      rw [compositions]
      split <;> simp
  | succ count ih =>
      have fewer : ∀ less ∈ List.range total, ((compositions count (total - (less + 1))).map
          ((less + 1) :: ·)).length ≤ total ^ count := by
        intro less _
        rw [List.length_map]
        exact (ih _).trans (Nat.pow_le_pow_left (Nat.sub_le _ _) _)
      have all := length_flatMap_le fewer
      rwa [List.length_range, ← pow_succ'] at all

namespace Symbol

/-- The number of words among some symbols. -/
def wordCount (symbols : List Symbol) : Nat := symbols.countP (·.slot? = none)

theorem wordCount_word (id : Nat) (symbols : List Symbol) :
    wordCount (.word id :: symbols) = wordCount symbols + 1 := by
  simp [wordCount, slot?]

theorem wordCount_slot (slot : Nat) (symbols : List Symbol) :
    wordCount (.slot slot :: symbols) = wordCount symbols := by
  simp [wordCount, slot?]

/-- The widths of the pieces that slots take. -/
def gapWidths (placed : List (Symbol × Span)) : List Nat :=
  (gaps placed).map fun gap => gap.2.stop - gap.2.start

variable {sentence : List WordId} {span : Span} {symbols : List Symbol} {pieces : List Span}

/-- The gaps take up what the words leave of the span. -/
theorem sum_gapWidths (length : symbols.length = pieces.length) (cut : span.IsCut pieces)
    (fits : ∀ x ∈ symbols.zip pieces, x.1.Fits sentence x.2) :
    wordCount symbols + (gapWidths (symbols.zip pieces)).sum = span.stop - span.start := by
  induction symbols generalizing span pieces with
  | nil =>
      obtain rfl := List.length_eq_zero_iff.1 length.symm
      rw [show span.start = span.stop from cut, Nat.sub_self]
      rfl
  | cons symbol symbols ih =>
      cases pieces with
      | nil => cases length
      | cons piece pieces =>
          obtain ⟨start, nonempty, rest⟩ := cut
          rw [List.zip_cons_cons] at fits
          obtain ⟨here, later⟩ := List.forall_mem_cons.1 fits
          have bound := rest.start_le_stop
          have sum := ih (Nat.succ.inj length) rest later
          dsimp only at bound sum
          cases symbol with
          | word id =>
              have one := here.1
              rw [wordCount_word, List.zip_cons_cons, gapWidths, gaps_word, ← gapWidths]
              dsimp only at one
              omega
          | slot slot =>
              rw [wordCount_slot, List.zip_cons_cons, gapWidths, gaps_slot, List.map_cons,
                ← gapWidths, List.sum_cons]
              dsimp only
              omega

theorem gapWidths_mem_compositions (length : symbols.length = pieces.length)
    (cut : span.IsCut pieces) (fits : ∀ x ∈ symbols.zip pieces, x.1.Fits sentence x.2) :
    gapWidths (symbols.zip pieces) ∈
      compositions (symbols.filterMap slot?).length
        (span.stop - span.start - wordCount symbols) := by
  have sum := sum_gapWidths length cut fits
  refine mem_compositions.2 ⟨?_, by omega, ?_⟩
  · rw [← map_fst_gaps symbols length, gapWidths, List.length_map, List.length_map]
  · intro width listed
    obtain ⟨⟨slot, piece⟩, member, rfl⟩ := List.mem_map.1 listed
    have nonempty := (cut.within (List.of_mem_zip (mem_gaps.1 member)).2).2
    exact Nat.sub_pos_of_lt nonempty

/-- The widths of the gaps tell the cut. -/
theorem gapWidths_injective {pieces' : List Span} (length : symbols.length = pieces.length)
    (cut : span.IsCut pieces) (fits : ∀ x ∈ symbols.zip pieces, x.1.Fits sentence x.2)
    (length' : symbols.length = pieces'.length) (cut' : span.IsCut pieces')
    (fits' : ∀ x ∈ symbols.zip pieces', x.1.Fits sentence x.2)
    (same : gapWidths (symbols.zip pieces) = gapWidths (symbols.zip pieces')) :
    pieces = pieces' := by
  induction symbols generalizing span pieces pieces' with
  | nil =>
      rw [List.length_eq_zero_iff.1 length.symm, List.length_eq_zero_iff.1 length'.symm]
  | cons symbol symbols ih =>
      match pieces, pieces', length, length' with
      | ⟨start, stop⟩ :: pieces, ⟨start', stop'⟩ :: pieces', length, length' =>
          obtain ⟨first, nonempty, rest⟩ := cut
          obtain ⟨first', nonempty', rest'⟩ := cut'
          rw [List.zip_cons_cons] at fits fits'
          obtain ⟨here, later⟩ := List.forall_mem_cons.1 fits
          obtain ⟨here', later'⟩ := List.forall_mem_cons.1 fits'
          dsimp only at first first' nonempty nonempty' rest rest'
          subst first first'
          have widths : stop = stop' ∧
              gapWidths (symbols.zip pieces) = gapWidths (symbols.zip pieces') := by
            cases symbol with
            | word id => exact ⟨here.1.trans here'.1.symm, same⟩
            | slot slot =>
                obtain ⟨width, widths⟩ := List.cons.inj same
                dsimp only at width
                exact ⟨by omega, widths⟩
          obtain ⟨rfl, widths⟩ := widths
          rw [ih (Nat.succ.inj length) rest later (Nat.succ.inj length') rest' later' widths]

end Symbol

namespace Rule

def wordCount (r : Rule) : Nat := Symbol.wordCount r.source

def gapCount (r : Rule) : Nat := (r.source.filterMap Symbol.slot?).length

/-- The ways to share out so many positions: one to each word, and one or more to each gap. -/
def ways (r : Rule) (width : Nat) : Nat :=
  if r.wordCount ≤ width then (compositions r.gapCount (width - r.wordCount)).length else 0

theorem ways_eq (r : Rule) (width : Nat) : r.ways width =
    if r.gapCount = 0 then if width = r.wordCount then 1 else 0
    else if r.gapCount ≤ width - r.wordCount then
      (width - r.wordCount - 1).choose (r.gapCount - 1)
    else 0 := by
  rw [ways, length_compositions]
  grind

theorem ways_le (r : Rule) (width : Nat) : r.ways width ≤ width ^ r.gapCount := by
  unfold ways
  split
  · exact (length_compositions_le _ _).trans (Nat.pow_le_pow_left (Nat.sub_le _ _) _)
  · exact Nat.zero_le _

variable {sentence : List WordId} {span : Span} {r : Rule}

/-- Cuts that a rule fits, none of them twice, are no more than the ways to share out the span. -/
theorem length_le_ways {cuts : List (List Span)} (apart : cuts.Nodup)
    (fitting : ∀ pieces ∈ cuts, r.source.length = pieces.length ∧ span.IsCut pieces ∧
      r.Fits sentence pieces) : cuts.length ≤ r.ways (span.stop - span.start) := by
  have widths_apart : (cuts.map fun pieces => Symbol.gapWidths (r.source.zip pieces)).Nodup := by
    refine apart.map_on fun pieces member pieces' member' same => ?_
    obtain ⟨length, cut, fits⟩ := fitting pieces member
    obtain ⟨length', cut', fits'⟩ := fitting pieces' member'
    exact Symbol.gapWidths_injective length cut fits length' cut' fits' same
  unfold ways
  split
  · rw [← List.length_map fun pieces => Symbol.gapWidths (r.source.zip pieces)]
    refine (widths_apart.subperm fun widths listed => ?_).length_le
    obtain ⟨pieces, member, rfl⟩ := List.mem_map.1 listed
    obtain ⟨length, cut, fits⟩ := fitting pieces member
    exact Symbol.gapWidths_mem_compositions length cut fits
  · next many =>
      refine Nat.le_of_eq (List.length_eq_zero_iff.2 (List.eq_nil_iff_forall_not_mem.2 ?_))
      intro pieces member
      obtain ⟨length, cut, fits⟩ := fitting pieces member
      have sum := Symbol.sum_gapWidths length cut fits
      rw [wordCount] at many
      omega

end Rule

end PackedForest
