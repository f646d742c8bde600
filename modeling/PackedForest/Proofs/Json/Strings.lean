import PackedForest.Json.Writer
import PackedForest.Proofs.Json.Runs

/-!
# Strings are read as they were written

A character is written as itself or as an escape that stands for it (`escape_cases`). So a string of
any characters is read as it was written, up to its closing quote and no further.
-/

namespace PackedForest.Json

open Reader (Runs)

variable {size : Nat} {text rest : List Char}

theorem hexValue?_digitChar : ∀ d < 16, hexValue? (Nat.digitChar d) = some d := by decide

/-- The escape of a control gives its code point in four digits. -/
theorem escapeSequence_control {c : Char} (control : c.toNat < 0x20) :
    escapeSequence.Runs size ('u' :: '0' :: '0' :: Nat.digitChar (c.toNat / 16) ::
      Nat.digitChar (c.toNat % 16) :: text) c text := by
  have high := hexValue?_digitChar (c.toNat / 16) (by omega)
  have low := hexValue?_digitChar (c.toNat % 16) (by omega)
  have digits : ['0', '0', Nat.digitChar (c.toNat / 16), Nat.digitChar (c.toNat % 16)].mapM
      hexValue? = some [0, 0, c.toNat / 16, c.toNat % 16] := by
    simp only [List.mapM_cons, List.mapM_nil, high, low]
    rfl
  have code : hexEscape.Runs size ('0' :: '0' :: Nat.digitChar (c.toNat / 16) ::
      Nat.digitChar (c.toNat % 16) :: text) c.toNat text := by
    unfold hexEscape
    refine .bind (a := '0' :: '0' :: Nat.digitChar (c.toNat / 16) ::
      Nat.digitChar (c.toNat % 16) :: text) rfl ?_
    extract_lets four
    have same : four.mapM hexValue? = some [0, 0, c.toNat / 16, c.toNat % 16] := digits
    rw [same]
    have value : ((0 * 16 + 0) * 16 + c.toNat / 16) * 16 + c.toNat % 16 = c.toNat := by omega
    dsimp only
    rw [value]
    exact .bind (a := ()) rfl .pure
  unfold escapeSequence
  refine .bind .take ?_
  rw [if_pos rfl]
  unfold unicodeEscape
  refine .bind code ?_
  rw [if_pos (by simp; omega), Char.ofNat_toNat]
  exact .pure

/-- A character stands for itself, or an escape stands for it. -/
theorem escape_cases (c : Char) :
    (escape c = [c] ∧ c ≠ '"' ∧ c ≠ '\\' ∧ ¬ c.toNat < 0x20) ∨
    ∃ sequence, escape c = '\\' :: sequence ∧
      ∀ size rest, escapeSequence.Runs size (sequence ++ rest) c rest := by
  unfold escape
  split
  · exact .inr ⟨_, rfl, fun _ _ => rfl⟩
  · exact .inr ⟨_, rfl, fun _ _ => rfl⟩
  · exact .inr ⟨_, rfl, fun _ _ => rfl⟩
  · exact .inr ⟨_, rfl, fun _ _ => rfl⟩
  · exact .inr ⟨_, rfl, fun _ _ => rfl⟩
  · exact .inr ⟨_, rfl, fun _ _ => rfl⟩
  · exact .inr ⟨_, rfl, fun _ _ => rfl⟩
  · next no_quote no_backslash _ _ _ _ _ =>
      split
      · next control => exact .inr ⟨_, rfl, fun _ _ => escapeSequence_control control⟩
      · next visible => exact .inl ⟨rfl, no_quote, no_backslash, visible⟩

theorem stringFrom_escaped (cs : List Char) {fuel : Nat} (enough : cs.length < fuel) :
    (stringFrom fuel).Runs size (cs.flatMap escape ++ '"' :: rest) cs rest := by
  induction cs generalizing fuel with
  | nil =>
      obtain ⟨fuel, rfl⟩ := Nat.exists_eq_succ_of_ne_zero (Nat.ne_of_gt enough)
      exact .bind .take .pure
  | cons c cs ih =>
      obtain ⟨fuel, rfl⟩ := Nat.exists_eq_succ_of_ne_zero (Nat.ne_of_gt (Nat.zero_lt_of_lt enough))
      have later := ih (Nat.lt_of_succ_lt_succ enough)
      rw [List.flatMap_cons, List.append_assoc]
      unfold stringFrom
      rcases escape_cases c with ⟨written, no_quote, no_backslash, visible⟩ | ⟨seq, written, means⟩
      · rw [written]
        refine .bind .take ?_
        rw [if_neg no_quote, if_neg visible]
        dsimp only
        rw [if_neg no_backslash]
        exact .bind .pure (.bind later .pure)
      · rw [written]
        refine .bind .take ?_
        rw [if_neg (by decide), if_neg (by decide)]
        dsimp only
        rw [if_pos rfl]
        exact .bind (means ..) (.bind later .pure)

theorem length_le_flatMap_escape (cs : List Char) : cs.length ≤ (cs.flatMap escape).length := by
  induction cs with
  | nil => exact Nat.le_refl _
  | cons c cs ih =>
      rw [List.flatMap_cons, List.length_append, List.length_cons]
      rcases escape_cases c with ⟨written, -⟩ | ⟨sequence, written, -⟩ <;>
        rw [written, List.length_cons] <;> omega

/-- A string after its opening quote. -/
theorem stringBody_string (cs : List Char)
    (short : (cs.flatMap escape ++ '"' :: rest).length < size) :
    stringBody.Runs size (cs.flatMap escape ++ '"' :: rest) cs rest := by
  have fewer := length_le_flatMap_escape cs
  rw [List.length_append] at short
  exact .bind .budget (stringFrom_escaped cs (by omega))

theorem string_eq_cons (cs : List Char) (rest : List Char) :
    string cs ++ rest = '"' :: (cs.flatMap escape ++ '"' :: rest) := by
  rw [string, List.cons_append, List.cons_append, List.append_assoc]
  rfl

/-- Any characters are read as they were written. -/
theorem reads_text (cs : List Char) : Reads Json.text (string cs) cs := by
  refine ⟨⟨'"', _, rfl, by decide⟩, fun {size rest} _ short => ?_⟩
  rw [string_eq_cons] at short ⊢
  exact .bind (.peek? rfl) (.bind .skip (stringBody_string cs (Nat.lt_of_succ_lt short)))

end PackedForest.Json
