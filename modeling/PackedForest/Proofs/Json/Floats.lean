import PackedForest.Proofs.Json.Integers

/-!
# Numbers that are read back

Whether the number that is read is the one that was written depends on the digits and on the
rounding of the reader, so it is a property of single numbers, `ReadsBack`. It is about a text with
nothing but the number. That the number is then also read back in the middle of a forest
(`reads_float`) rests on the reader being `Local`: what comes after a number, when it is no part of
one, neither changes the number nor is taken.
-/

namespace PackedForest.Json

open Reader (Runs)

variable {α β : Type}

/-- The text of the number, on its own, is read as the same number. -/
def ReadsBack (x : Float) : Prop := parse float (number x) = .ok x

/-- On this text, a reader that succeeds does the same when more comes after it. -/
structure Reader.Local (reader : Reader α) (text : List Char) : Prop where
  suffix : ∀ {size a rest}, reader.Runs size text a rest → rest <:+ text
  longer : ∀ {size a rest}, reader.Runs size text a rest → ∀ {size' more}, Parted more →
    reader.Runs size' (text ++ more) a (rest ++ more)

namespace Reader.Local

variable {reader : Reader α} {text : List Char}

theorem of_not_runs (never : ∀ {size a rest}, ¬ reader.Runs size text a rest) :
    reader.Local text :=
  ⟨fun run => absurd run never, fun run => absurd run never⟩

theorem pure (a : α) : (Pure.pure a : Reader α).Local text where
  suffix := by
    rintro size a' rest ⟨⟩
    exact List.suffix_refl _
  longer := by
    rintro size a' rest ⟨⟩ size' more -
    exact .pure

theorem throw (flaw : Flaw) : (MonadExcept.throw flaw : Reader α).Local text :=
  of_not_runs Runs.not_throw

theorem bind {f : α → Reader β} (first : reader.Local text) (second : ∀ a rest, (f a).Local rest) :
    (reader >>= f).Local text where
  suffix run := by
    obtain ⟨a, middle, run, run'⟩ := run.exists_of_bind
    exact ((second a middle).suffix run').trans (first.suffix run)
  longer run _ _ parted := by
    obtain ⟨a, middle, run, run'⟩ := run.exists_of_bind
    exact (first.longer run parted).bind ((second a middle).longer run' parted)

/-- A check that is not passed ends the reading. -/
theorem check {c : Prop} [Decidable c] {flaw : Flaw} {f : α → Reader β} {reader : Reader β}
    (passed : ¬ c → reader.Local text) :
    Reader.Local (if c then MonadExcept.throw flaw >>= f else reader) text := by
  split
  · refine of_not_runs fun run => ?_
    obtain ⟨_, _, thrown, -⟩ := run.exists_of_bind
    exact Runs.not_throw thrown
  · next not => exact passed not

theorem take (flaw : Flaw) : (Json.take flaw).Local text := by
  cases text with
  | nil => exact of_not_runs fun run => by cases run
  | cons c text =>
      constructor
      · rintro size a rest ⟨⟩
        exact List.suffix_cons _ _
      · rintro size a rest ⟨⟩ size' more -
        exact .take

theorem skip (c : Char) : Json.skip.Local (c :: text) where
  suffix := by
    rintro size a rest ⟨⟩
    exact List.suffix_cons _ _
  longer := by
    rintro size a rest ⟨⟩ size' more -
    exact .skip

/-- What is done next must not tell the end of the text from a character after the number, unless
it fails at the end. -/
theorem next_bind {f : Option Char → Reader β}
    (here : ∀ c cs, text = c :: cs → (f (some c)).Local (c :: cs)) (ending : (f none).Local [])
    (same : (∀ {size b rest}, ¬ (f none).Runs size [] b rest) ∨
      ∀ c, Parts c → f (some c) = f none) :
    (next? >>= f).Local text where
  suffix run := by
    obtain ⟨o, middle, seen, run⟩ := run.exists_of_bind
    cases seen
    cases text with
    | nil => exact ending.suffix run
    | cons c cs => exact (here c cs rfl).suffix run
  longer := by
    intro size b rest run size' more parted
    obtain ⟨o, middle, seen, run⟩ := run.exists_of_bind
    cases seen
    refine .bind .next? ?_
    cases text with
    | cons c cs => exact (here c cs rfl).longer run parted
    | nil =>
        have later : Runs (f none) size' ([] ++ more) b (rest ++ more) := ending.longer run parted
        cases more with
        | nil => exact later
        | cons c more =>
            rw [List.nil_append, List.head?_cons, same.resolve_left (fun never => never run) c
              (parted c rfl)]
            exact later

theorem digits : Json.digits.Local text where
  suffix := by
    rintro size ds rest ⟨⟩
    exact List.drop_suffix _ _
  longer := by
    rintro size ds rest ⟨⟩ size' more parted
    have same : (text ++ more).takeWhile Char.isDigit = text.takeWhile Char.isDigit := by
      rw [List.takeWhile_append, parted.takeWhile_isDigit, List.append_nil]
      split
      · next all => exact ((List.takeWhile_prefix _).eq_of_length all).symm
      · rfl
    have run : Json.digits.Runs size' (text ++ more) _ _ := .digits
    rwa [same, List.drop_append_of_le_length (List.takeWhile_prefix _).length_le] at run

/-- The significand takes no more digits than there are, and none of what comes after them. -/
theorem accumulate_more (significand count : Nat) (text : List Char) {more : List Char}
    (parted : Parted more) :
    Json.significandDigits.accumulate significand count (text ++ more) =
      Json.significandDigits.accumulate significand count text ∧
    (Json.significandDigits.accumulate significand count text).2 ≤ count + text.length := by
  induction text generalizing significand count with
  | nil => exact ⟨accumulate_parted parted significand count, Nat.le_refl _⟩
  | cons c text ih =>
      rw [List.cons_append, Json.significandDigits.accumulate,
        Json.significandDigits.accumulate, List.length_cons]
      split
      · obtain ⟨same, few⟩ := ih (10 * significand + digitValue c) (count + 1)
        exact ⟨same, by omega⟩
      · exact ⟨rfl, by omega⟩

theorem significandDigits (significand : Nat) :
    (Json.significandDigits significand).Local text where
  suffix := by
    rintro size result rest ⟨⟩
    exact List.drop_suffix _ _
  longer := by
    rintro size result rest ⟨⟩ size' more parted
    obtain ⟨same, few⟩ := accumulate_more significand 0 text parted
    have run : (Json.significandDigits significand).Runs size' (text ++ more) _ _ :=
      .significandDigits significand
    rw [same, List.drop_append_of_le_length (by omega)] at run
    exact run

end Reader.Local

open Reader (Local)

variable {text : List Char}

theorem floatOf_local (negative : Bool) (significand : Nat) (exponent : Int) :
    (floatOf negative significand exponent).Local text := by
  unfold floatOf
  cases scale (Float.ofNat significand) exponent with
  | ok x => exact .pure _
  | error flaw => exact .throw flaw

theorem exponentPart_local (negative : Bool) (significand : Nat) (shift : Int) (c : Char) :
    (exponentPart negative significand shift).Local (c :: text) := by
  unfold exponentPart
  refine .bind (.skip c) fun _ rest => .next_bind (fun sign cs _ => ?_) ?_ ?_
  · extract_lets power signed
    have power_local : ∀ rest, (power ()).Local rest := by
      refine fun rest => .bind .digits fun ds rest => ?_
      extract_lets value
      by_cases small : value < 0x80000000
      · rw [if_pos small]
        exact floatOf_local ..
      · rw [if_neg small]
        split
        · exact .throw _
        · exact .pure _
    have signed_local : ∀ rest, (signed ()).Local rest := fun rest =>
      .next_bind (fun c cs _ => .check fun _ => power_local _) (.throw _) (.inl Runs.not_throw)
    split
    · exact .bind (.skip sign) fun _ rest => signed_local rest
    · exact signed_local _
  all_goals
    -- At the end of the text, as before any other character, an exponent is refused.
    extract_lets power signed
    have refused : ∀ {size b rest}, ¬ (signed ()).Runs size [] b rest := by
      intro size b rest run
      obtain ⟨o, _, seen, thrown⟩ := run.exists_of_bind
      cases seen
      exact Runs.not_throw thrown
  · exact .of_not_runs refused
  · exact .inl refused

theorem afterDigits_local (negative : Bool) (significand : Nat) (shift : Int) :
    (afterDigits negative significand shift).Local text := by
  unfold afterDigits
  refine .next_bind (fun c cs _ => ?_) (floatOf_local ..) (.inr ?_)
  · split
    · exact exponentPart_local ..
    · exact exponentPart_local ..
    · exact floatOf_local ..
  · rintro c (rfl | rfl | rfl | rfl) <;> rfl

theorem fractionPart_local (negative : Bool) (significand : Nat) (shift : Int) (c : Char) :
    (fractionPart negative significand shift).Local (c :: text) := by
  unfold fractionPart
  refine .bind (.skip c) fun _ rest => .bind (.significandDigits _) fun taken rest => ?_
  obtain ⟨significand, count⟩ := taken
  refine .bind .digits fun ignored rest => ?_
  extract_lets after
  split
  · refine .of_not_runs fun run => ?_
    obtain ⟨o, _, -, run⟩ := run.exists_of_bind
    obtain ⟨_, _, thrown, -⟩ := run.exists_of_bind
    exact Runs.not_throw thrown
  · exact afterDigits_local ..

/-- The end of a number that has neither point nor exponent. -/
theorem integer_local (negative : Bool) (significand : Nat) (ignored : List Char) :
    Local (if !ignored.isEmpty then floatOf negative significand ignored.length
      else if negative then
        if significand = 0 || 0x8000000000000000 < significand then
          pure (.float (-(Float.ofNat significand)))
        else pure (.int (-significand))
      else pure (.int significand)) text := by
  split
  · exact floatOf_local ..
  · split
    · split
      · exact .pure _
      · exact .pure _
    · exact .pure _

theorem unsigned_local (negative : Bool) : (unsigned negative).Local text := by
  unfold unsigned
  refine .bind (.take _) fun first rest => ?_
  extract_lets whole unsigned
  have whole_local : ∀ rest, (whole ()).Local rest := by
    refine fun rest => .bind (.significandDigits _) fun taken rest => ?_
    obtain ⟨significand, count⟩ := taken
    refine .bind .digits fun ignored rest => .next_bind (fun c cs _ => ?_) ?_ (.inr ?_)
    · split
      · exact fractionPart_local ..
      · exact exponentPart_local ..
      · exact exponentPart_local ..
      · exact integer_local ..
    · exact integer_local ..
    · rintro c (rfl | rfl | rfl | rfl) <;> rfl
  refine .check fun _ => .next_bind (fun c cs _ => .check fun _ => whole_local _)
    (.check fun _ => whole_local _) (.inr ?_)
  intro c parts
  simp only [Option.any_some, Option.any_none, parts.isDigit]

theorem numeral_local : numeral.Local text := by
  refine .next_bind (fun c cs _ => ?_) (unsigned_local false) (.inr ?_)
  · split
    · exact .bind (.skip c) fun _ rest => unsigned_local true
    · exact unsigned_local false
  · rintro c (rfl | rfl | rfl | rfl) <;> rfl

/-- No value is read where one of another shape comes next. -/
theorem mismatch_not_runs {size : Nat} {a : α} {rest : List Char} :
    ¬ (mismatch : Reader α).Runs size text a rest := by
  intro run
  obtain ⟨o, _, -, run⟩ := run.exists_of_bind
  extract_lets refused at run
  have never : ∀ {text : List Char}, ¬ (refused ()).Runs size text a rest := Runs.not_throw
  have never_after : ∀ {β : Type} {first : Reader β} {text : List Char},
      ¬ (first >>= fun _ => refused ()).Runs size text a rest := by
    intro β first text run
    obtain ⟨_, _, -, thrown⟩ := run.exists_of_bind
    exact never thrown
  split at run
  · exact never_after run
  · exact never_after run
  · exact never_after run
  · exact never_after run
  · obtain ⟨_, _, -, run⟩ := run.exists_of_bind
    exact never_after run
  · exact never run
  · exact never run
  · split at run
    · exact never_after run
    · exact never_after run

/-- A text without blanks. -/
def Visible (text : List Char) : Prop := ∀ c ∈ text, isBlank c = false

instance (text : List Char) : Decidable (Visible text) :=
  List.decidableBAll _ text

theorem Visible.append {text text' : List Char} (h : Visible text) (h' : Visible text') :
    Visible (text ++ text') := List.forall_mem_append.2 ⟨h, h'⟩

theorem Visible.cons {c : Char} {text : List Char} (visible : isBlank c = false)
    (h : Visible text) : Visible (c :: text) := List.forall_mem_cons.2 ⟨visible, h⟩

theorem visible_toDigits (n : Nat) : Visible (Nat.toDigits 10 n) :=
  fun _ member => (opens_of_isDigit (isDigit_of_mem_nat member)).1

theorem visible_positional (d : Decimal.Scientific) :
    Visible (Decimal.positional true d) := by
  have zeros : ∀ n, Visible (List.replicate n '0') := by
    intro n c member
    rw [List.eq_of_mem_replicate member]
    rfl
  unfold Decimal.positional
  extract_lets digits places
  have digits_visible : Visible digits := visible_toDigits _
  have some_visible : ∀ n, Visible (digits.take n) ∧ Visible (digits.drop n) := fun n =>
    ⟨fun c member => digits_visible c (List.mem_of_mem_take member),
      fun c member => digits_visible c (List.mem_of_mem_drop member)⟩
  split
  · exact (digits_visible.append (zeros _)).append (by decide)
  · split
    · exact (some_visible _).1.append (.cons rfl (some_visible _).2)
    · exact .cons rfl (.cons rfl ((zeros _).append digits_visible))

theorem visible_exponential (d : Decimal.Scientific) : Visible (Decimal.exponential d) := by
  unfold Decimal.exponential
  extract_lets digits magnitude
  have digits_visible : Visible digits := visible_toDigits _
  refine ((Visible.append (Visible.append ?_ ?_) ?_)).append (visible_toDigits _)
  · exact fun c member => digits_visible c (List.mem_of_mem_take member)
  · split
    · exact fun c member => by cases member
    · exact .cons rfl fun c member => digits_visible c (List.mem_of_mem_drop member)
  · split <;> decide

/-- Numbers are written without blanks. -/
theorem visible_number (x : Float) : Visible (number x) := by
  unfold number Decimal.Format.render
  split
  · decide
  · split
    · split <;> decide
    · extract_lets bits sign magnitude
      have sign_visible : Visible sign := by
        unfold sign
        split <;> decide
      split
      · exact sign_visible.append (by decide)
      · refine sign_visible.append ?_
        unfold Decimal.Format.renderDecimal
        split
        · exact visible_positional _
        · exact visible_exponential _

/-- What is left of a text after its value are blanks. -/
theorem exists_of_parse {reader : Reader α} {a : α} (h : parse reader text = .ok a) :
    ∃ rest, reader.Runs (text.length + 1) text a rest ∧ ∀ c ∈ rest, isBlank c = true := by
  unfold parse at h
  cases run : (reader.run (text.length + 1)).run text with
  | error flaw =>
      rw [run] at h
      cases h
  | ok result =>
      obtain ⟨a', rest⟩ := result
      rw [run] at h
      change (if (rest.any fun c => !isBlank c) = true then _ else _) = _ at h
      split at h
      · cases h
      · next blanks =>
          cases h
          refine ⟨rest, run, fun c member => ?_⟩
          cases blank : isBlank c with
          | true => rfl
          | false => exact absurd (List.any_eq_true.2 ⟨c, member, by rw [blank]; rfl⟩) blanks

/-- A number that is read back on its own is read back wherever it stands. -/
theorem reads_float {x : Float} (h : ReadsBack x) : Reads float (number x) x := by
  have visible := visible_number x
  obtain ⟨rest, run, blank⟩ := exists_of_parse h
  generalize number x = text at run visible
  cases text with
  | nil => cases run
  | cons c cs =>
      obtain ⟨here, -⟩ := List.forall_mem_cons.1 visible
      obtain ⟨o, middle, seen, run⟩ := run.exists_of_bind
      obtain ⟨rfl, rfl⟩ := seen.unique (.peek? here)
      dsimp only at run
      have starts : (c = '-' || c.isDigit) = true := by
        cases starts : (decide (c = '-') || c.isDigit) with
        | true => rfl
        | false =>
            rw [starts] at run
            exact absurd run mismatch_not_runs
      rw [if_pos starts] at run
      obtain ⟨n, middle, taken, value⟩ := run.exists_of_bind
      obtain rfl : middle = rest := by cases n <;> cases value <;> rfl
      obtain rfl : middle = [] := by
        rw [List.eq_nil_iff_forall_not_mem]
        intro d member
        have blank_here := blank d member
        rw [visible d ((numeral_local.suffix taken).subset member)] at blank_here
        cases blank_here
      refine ⟨⟨c, cs, rfl, ?_⟩, fun parted _ => ?_⟩
      · rcases Bool.or_eq_true_iff.1 starts with minus | digit
        · rw [of_decide_eq_true minus]
          decide
        · exact opens_of_isDigit digit
      · refine .bind (.peek? here) ?_
        dsimp only
        rw [if_pos starts]
        refine .bind (numeral_local.longer taken parted) ?_
        cases n <;> cases value <;> exact .pure

end PackedForest.Json
