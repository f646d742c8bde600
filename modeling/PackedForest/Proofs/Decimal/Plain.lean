import PackedForest.Decimal.Format
import PackedForest.Decimal.Reader
import PackedForest.Proofs.Text.Words

/-!
# Numbers written in full

A number that is written in full is a word, or digits with a point among them or without one, after
a minus or not (`Decimal.plain_cases`). So it can be read again (`Decimal.exists_read_plain`), as
some number. That this is the same number depends on the digits and on the rounding of the reader,
and is not shown here.

No blank, bar or equals sign is among the characters of a number, so it can stand in a column and
after an equals sign.
-/

namespace PackedForest.Decimal

/-- Digits, with a point after the first of them or without one. -/
inductive Numeral : List Char → Prop
  | whole {digits : List Char} : digits ≠ [] → (∀ c ∈ digits, c.isDigit = true) → Numeral digits
  | point {digits places : List Char} : digits ≠ [] → (∀ c ∈ digits, c.isDigit = true) →
      (∀ c ∈ places, c.isDigit = true) → Numeral (digits ++ '.' :: places)

namespace Numeral

variable {cs : List Char}

theorem first (h : Numeral cs) : ∃ c rest, cs = c :: rest ∧ c.isDigit = true := by
  cases h with
  | whole nonempty all =>
      obtain ⟨c, rest, rfl⟩ := List.exists_cons_of_ne_nil nonempty
      exact ⟨c, rest, rfl, all c List.mem_cons_self⟩
  | point nonempty all =>
      obtain ⟨c, rest, rfl⟩ := List.exists_cons_of_ne_nil nonempty
      exact ⟨c, _, rfl, all c List.mem_cons_self⟩

theorem mem (h : Numeral cs) {c : Char} (listed : c ∈ cs) : c.isDigit = true ∨ c = '.' := by
  cases h with
  | whole _ all => exact .inl (all c listed)
  | point _ all all' =>
      rcases List.mem_append.1 listed with before | after
      · exact .inl (all c before)
      · exact (List.mem_cons.1 after).symm.imp_left (all' c)

theorem readDigits (h : Numeral cs) : ∃ x, readDigits? cs = some x := by
  cases h with
  | whole nonempty all =>
      have taken : cs.takeWhile Char.isDigit = cs := List.takeWhile_eq_self_iff.2 all
      have left : cs.dropWhile Char.isDigit = [] := List.dropWhile_eq_nil_iff.2 all
      simp [readDigits?, taken, left, nonempty]
  | @point digits places nonempty all all' =>
      have point : ¬ Char.isDigit '.' = true := by decide
      have taken : (digits ++ '.' :: places).takeWhile Char.isDigit = digits := by
        rw [List.takeWhile_append_of_pos all, List.takeWhile_cons_of_neg point, List.append_nil]
      have left : (digits ++ '.' :: places).dropWhile Char.isDigit = '.' :: places := by
        rw [List.dropWhile_append_of_pos all, List.dropWhile_cons_of_neg point]
      have taken' : places.takeWhile Char.isDigit = places := List.takeWhile_eq_self_iff.2 all'
      have left' : places.dropWhile Char.isDigit = [] := List.dropWhile_eq_nil_iff.2 all'
      simp [readDigits?, taken, left, taken', left', nonempty]

theorem readMagnitude (h : Numeral cs) : ∃ x, readMagnitude? cs = some x := by
  unfold readMagnitude?
  extract_lets lower
  split
  · exact ⟨_, rfl⟩
  · split
    · exact ⟨_, rfl⟩
    · exact h.readDigits

end Numeral

theorem numeral_positional (d : Scientific) : Numeral (positional false d) := by
  have all : ∀ c ∈ Nat.toDigits 10 d.digits, c.isDigit = true := fun c listed =>
    Nat.isDigit_of_mem_toDigits (by decide) (by decide) listed
  have nonempty : Nat.toDigits 10 d.digits ≠ [] := Nat.toDigits_ne_nil
  have zeros : ∀ n, ∀ c ∈ List.replicate n '0', c.isDigit = true := by
    intro n c listed
    rw [List.eq_of_mem_replicate listed]
    rfl
  unfold positional
  extract_lets digits places
  split
  · rw [if_neg Bool.false_ne_true, List.append_nil]
    exact .whole (List.append_ne_nil_of_left_ne_nil nonempty _)
      (List.forall_mem_append.2 ⟨all, zeros _⟩)
  · split
    · next fewer =>
        refine .point (List.ne_nil_of_length_pos ?_) (fun c listed => ?_) fun c listed => ?_
        · rw [List.length_take]
          omega
        · exact all c (List.mem_of_mem_take listed)
        · exact all c (List.mem_of_mem_drop listed)
    · exact .point (List.cons_ne_nil '0' []) (zeros 1) (List.forall_mem_append.2 ⟨zeros _, all⟩)

/-- The forms of a number that is written in full. -/
theorem plain_cases (x : Float) :
    Format.plain.render x ∈ ["NaN".toList, "inf".toList, "-inf".toList] ∨
      ∃ cs, Numeral cs ∧ (Format.plain.render x = cs ∨ Format.plain.render x = '-' :: cs) := by
  have signed : ∀ (c : Prop) [Decidable c] {cs : List Char}, Numeral cs →
      ∃ cs', Numeral cs' ∧ ((if c then ['-'] else []) ++ cs = cs' ∨
        (if c then ['-'] else []) ++ cs = '-' :: cs') := by
    intro c _ cs numeral
    refine ⟨cs, numeral, ?_⟩
    split
    · exact .inr rfl
    · exact .inl rfl
  unfold Format.render
  split
  · exact .inl (by simp [Format.plain])
  · split
    · split <;> exact .inl (by simp [Format.plain])
    · extract_lets bits sign magnitude
      right
      split
      · exact signed _ (.whole (List.cons_ne_nil '0' []) (List.forall_mem_singleton.2 rfl))
      · exact signed _ (numeral_positional _)

/-- A number that is written in full is read, as some number. -/
theorem exists_read_plain (x : Float) : ∃ y, read (Format.plain.render x) = .ok y := by
  rcases plain_cases x with words | ⟨cs, numeral, unsigned | minus⟩
  · simp only [List.mem_cons, List.not_mem_nil, or_false] at words
    rcases words with word | word | word
    all_goals
      rw [word]
      exact ⟨_, rfl⟩
  · obtain ⟨y, magnitude⟩ := numeral.readMagnitude
    obtain ⟨c, rest, rfl, digit⟩ := numeral.first
    refine ⟨y, ?_⟩
    rw [unsigned, read, magnitude]
    · rfl
    -- The first character is a digit, so it is no sign.
    all_goals
      intro rest same
      cases same
      cases digit
  · obtain ⟨y, magnitude⟩ := numeral.readMagnitude
    refine ⟨-y, ?_⟩
    rw [minus, read, magnitude]
    rfl

theorem mem_plain {x : Float} {c : Char} (listed : c ∈ Format.plain.render x) :
    c.isDigit = true ∨ c ∈ "-.NaNinf".toList := by
  rcases plain_cases x with words | ⟨cs, numeral, unsigned | minus⟩
  · right
    have known : (["NaN".toList, "inf".toList, "-inf".toList].all fun word =>
        word.all fun c => decide (c ∈ "-.NaNinf".toList)) = true := by decide
    have here := List.all_eq_true.1 (List.all_eq_true.1 known _ words) c listed
    exact of_decide_eq_true here
  · rw [unsigned] at listed
    refine (numeral.mem listed).imp_right ?_
    rintro rfl
    decide
  · rw [minus, List.mem_cons] at listed
    rcases listed with rfl | later
    · exact .inr (by decide)
    · refine (numeral.mem later).imp_right ?_
      rintro rfl
      decide

theorem solid_plain (x : Float) : Text.Solid (Format.plain.render x) := by
  intro c listed
  rcases mem_plain listed with digit | other
  · exact Text.isBlank_of_isDigit (Text.isDigit_of_ascii digit)
  · have visible : Text.Solid "-.NaNinf".toList := by decide
    exact visible c other

theorem not_mem_plain {c : Char} (digit : c.isDigit = false) (other : c ∉ "-.NaNinf".toList)
    (x : Float) : c ∉ Format.plain.render x := by
  intro listed
  rcases mem_plain listed with digit' | known
  · rw [digit] at digit'
    cases digit'
  · exact other known

end PackedForest.Decimal
