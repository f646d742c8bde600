import PackedForest.Json.Writer
import PackedForest.Proofs.Json.Runs

/-!
# Integers are read as they were written

An integer is written with as few digits as it has, so no zero comes first, and a minus only comes
before digits that are not zero. The reader takes all the digits into its significand as long as
that keeps to 64 bits, and no point or exponent comes after it. So it sees the same integer again
(`reads_intBetween`), if it asks for a range with this integer in it.
-/

namespace PackedForest.Json

open Reader (Runs)

theorem isDigit_of_mem_nat {n : Nat} {c : Char} (member : c ∈ nat n) : c.isDigit = true :=
  Nat.isDigit_of_mem_toDigits (by decide) (by decide) member

/-- Only zero is written with a zero in front. -/
theorem head?_nat_ne_zero {n : Nat} (positive : 0 < n) : (nat n).head? ≠ some '0' := by
  unfold nat
  induction n using Nat.strongRecOn with
  | ind n ih =>
      rw [Nat.toDigits_eq_if (by decide)]
      split
      · intro zero
        exact Nat.ne_of_gt positive (Nat.digitChar_eq_zero.1 (Option.some.inj zero))
      · next wide =>
          have shorter := ih (n / 10) (by omega) (by omega)
          obtain ⟨c, cs, written⟩ : ∃ c cs, Nat.toDigits 10 (n / 10) = c :: cs :=
            List.exists_cons_of_ne_nil Nat.toDigits_ne_nil
          rw [written] at shorter ⊢
          exact shorter

theorem exists_nat_eq_cons (n : Nat) : ∃ c cs, nat n = c :: cs :=
  List.exists_cons_of_ne_nil Nat.toDigits_ne_nil

theorem Parts.isDigit {c : Char} (parts : Parts c) : c.isDigit = false := by
  rcases parts with rfl | rfl | rfl | rfl <;> rfl

variable {size : Nat} {ds rest text : List Char}

theorem accumulate_parted (parted : Parted rest) (significand count : Nat) :
    significandDigits.accumulate significand count rest = (significand, count) := by
  cases rest with
  | nil => rfl
  | cons c rest =>
      rw [significandDigits.accumulate, (parted c rfl).isDigit]
      rfl

/-- All of some digits go into the significand, if it keeps to 64 bits with the last of them. -/
theorem accumulate_append (all : ∀ c ∈ ds, c.isDigit = true) (parted : Parted rest)
    {significand : Nat} (count : Nat)
    (fits : Nat.ofDigitChars 10 ds significand < 0x10000000000000000) :
    significandDigits.accumulate significand count (ds ++ rest) =
      (Nat.ofDigitChars 10 ds significand, count + ds.length) := by
  induction ds generalizing significand count with
  | nil => exact accumulate_parted parted significand count
  | cons d ds ih =>
      obtain ⟨digit, later⟩ := List.forall_mem_cons.1 all
      rw [Nat.ofDigitChars_cons] at fits ⊢
      have here : 10 * significand + digitValue d < 0x10000000000000000 := by
        refine Nat.lt_of_le_of_lt ?_ fits
        rw [Nat.ofDigitChars_eq_ofDigitChars_zero]
        calc 10 * significand + digitValue d
          _ ≤ 10 ^ ds.length * (10 * significand + digitValue d) :=
            Nat.le_mul_of_pos_left _ (Nat.pow_pos (by decide))
          _ ≤ _ := Nat.le_add_right _ _
      rw [List.cons_append, significandDigits.accumulate, digit, Bool.true_and,
        decide_eq_true here, if_pos rfl]
      refine (ih later (count + 1) fits).trans ?_
      rw [List.length_cons, Nat.add_right_comm, Nat.add_assoc]

theorem Parted.takeWhile_isDigit (parted : Parted rest) : rest.takeWhile Char.isDigit = [] := by
  cases rest with
  | nil => rfl
  | cons c rest =>
      rw [List.takeWhile_cons, (parted c rfl).isDigit]
      rfl

namespace Reader.Runs

theorem significandDigits (significand : Nat) : (Json.significandDigits significand).Runs size text
    (significandDigits.accumulate significand 0 text)
    (text.drop (significandDigits.accumulate significand 0 text).2) := rfl

theorem digits : Json.digits.Runs size text (text.takeWhile Char.isDigit)
    (text.drop (text.takeWhile Char.isDigit).length) := rfl

/-- A check that is passed. -/
theorem check {α β : Type} {c : Prop} [Decidable c] {flaw : Flaw} {f : β → Reader α}
    {x : Reader α} {a : α} (passed : ¬ c) (run : x.Runs size text a rest) :
    Runs (if c then throw flaw >>= f else x) size text a rest := by
  rwa [if_neg passed]

end Reader.Runs

/-- The number after its sign that was written for a natural number. -/
theorem unsigned_nat {n : Nat} (fits : n < 0x10000000000000000) (negative : Bool)
    (parted : Parted rest) : (unsigned negative).Runs size (nat n ++ rest)
      (if negative then
        if n = 0 || 0x8000000000000000 < n then .float (-(Float.ofNat n)) else .int (-n)
      else .int n) rest := by
  obtain ⟨d, ds, written⟩ := exists_nat_eq_cons n
  have all : ∀ c ∈ d :: ds, c.isDigit = true := fun c member =>
    isDigit_of_mem_nat (written.symm ▸ member)
  obtain ⟨digit, all⟩ := List.forall_mem_cons.1 all
  have value : Nat.ofDigitChars 10 ds (digitValue d) = n := by
    have whole : Nat.ofDigitChars 10 (nat n) 0 = n := Nat.ofDigitChars_ten_toDigits
    rwa [written, Nat.ofDigitChars_cons, Nat.mul_zero, Nat.zero_add] at whole
  -- A zero in front is the only digit, so none comes next.
  have lone : ¬ (decide (d = '0') && (ds ++ rest).head?.any Char.isDigit) := by
    rintro both
    obtain ⟨zero, more⟩ := Bool.and_eq_true_iff.1 both
    rcases Nat.eq_zero_or_pos n with rfl | positive
    · cases written
      rw [List.nil_append] at more
      obtain ⟨c, first, digit⟩ := (Option.any_eq_true _ _).1 more
      rw [(parted c first).isDigit] at digit
      cases digit
    · exact head?_nat_ne_zero positive (by rw [written, of_decide_eq_true zero]; rfl)
  have taken := accumulate_append all parted 0 (value.symm ▸ fits)
  rw [value, Nat.zero_add] at taken
  have significand : (significandDigits (digitValue d)).Runs size (ds ++ rest)
      (n, ds.length) rest := by
    have run : (significandDigits (digitValue d)).Runs size (ds ++ rest) _ _ :=
      Runs.significandDigits _
    rwa [taken, List.drop_left] at run
  have ignored : digits.Runs size rest [] rest := by
    have run : digits.Runs size rest _ _ := Runs.digits
    rwa [parted.takeWhile_isDigit] at run
  rw [written]
  unfold unsigned
  refine .bind .take ?_
  extract_lets checked unsigned
  refine .check (by simp [digit]) ?_
  refine .bind .next? (.check lone (significand.bind (ignored.bind (.bind .next? ?_))))
  have no_point : rest.head? ≠ some '.' ∧ rest.head? ≠ some 'e' ∧ rest.head? ≠ some 'E' := by
    refine ⟨?_, ?_, ?_⟩ <;>
    · intro first
      rcases parted _ first with same | same | same | same <;> cases same
  split
  · next first => exact absurd first no_point.1
  · next first => exact absurd first no_point.2.1
  · next first => exact absurd first no_point.2.2
  · cases negative with
    | false => exact .pure
    | true =>
        simp only [List.isEmpty_nil, Bool.not_true, Bool.false_eq_true, if_false, if_true]
        split <;> exact .pure

theorem opens_of_isDigit {c : Char} (digit : c.isDigit = true) : Opens c := by
  have other : ∀ d : Char, d.isDigit = false → c ≠ d := by
    rintro d none rfl
    rw [digit] at none
    cases none
  refine ⟨?_, other _ rfl, other _ rfl, other _ rfl⟩
  simp [isBlank, other ' ' rfl, other '\n' rfl, other '\t' rfl, other '\r' rfl]

/-- What a number is written with when it is read as an integer. -/
theorem intBetween_of_numeral {low high i : Int} (above : low ≤ i) (below : i ≤ high) {c : Char}
    (number : (c = '-' || c.isDigit) = true) (visible : isBlank c = false)
    (run : numeral.Runs size (c :: text) (.int i) rest) :
    (intBetween low high).Runs size (c :: text) i rest := by
  unfold intBetween
  refine .bind (.peek? visible) ?_
  dsimp only
  rw [if_pos number]
  refine .bind run ?_
  dsimp only
  rw [if_pos ⟨above, below⟩]
  exact .pure

/-- An integer of the range that is asked for is read as it was written. -/
theorem reads_intBetween {low high i : Int} (above : low ≤ i) (below : i ≤ high)
    (least : -0x8000000000000000 ≤ i) (most : i < 0x10000000000000000) :
    Reads (intBetween low high) (int i) i := by
  unfold int
  split
  · next negative =>
      refine ⟨⟨'-', nat i.natAbs, rfl, by decide⟩, fun {size rest} parted _ => ?_⟩
      refine intBetween_of_numeral above below rfl rfl ?_
      have value : (unsigned true).Runs size (nat i.natAbs ++ rest) _ rest :=
        unsigned_nat (by omega) true parted
      rw [if_pos rfl, if_neg (by simp; omega), show -(i.natAbs : Int) = i by omega] at value
      exact .bind .next? (.bind .skip value)
  · next natural =>
      obtain ⟨d, ds, written⟩ := exists_nat_eq_cons i.toNat
      have digit : d.isDigit = true :=
        isDigit_of_mem_nat (written.symm ▸ List.mem_cons_self : d ∈ nat i.toNat)
      refine ⟨⟨d, ds, written, opens_of_isDigit digit⟩, fun {size rest} parted _ => ?_⟩
      have value : (unsigned false).Runs size (nat i.toNat ++ rest) _ rest :=
        unsigned_nat (by omega) false parted
      rw [if_neg Bool.false_ne_true, show ((i.toNat : Nat) : Int) = i by omega] at value
      rw [written, List.cons_append] at value ⊢
      refine intBetween_of_numeral above below (by simp [digit]) (opens_of_isDigit digit).1 ?_
      refine .bind .next? ?_
      rw [if_neg]
      · exact value
      · intro minus
        obtain rfl : d = '-' := Option.some.inj minus
        cases digit

/-- A natural number below the bound is read as it was written. -/
theorem reads_natBelow {bound n : Nat} (below : n < bound) (fits : n < 0x10000000000000000) :
    Reads (natBelow bound) (nat n) n := by
  have reads : Reads (intBetween 0 (bound - 1)) (int n) n :=
    reads_intBetween (by omega) (by omega) (by omega) (by omega)
  rw [int, if_neg (by omega)] at reads
  exact reads.map Int.toNat

end PackedForest.Json
