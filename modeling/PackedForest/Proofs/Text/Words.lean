import Mathlib.Data.List.Infix
import Mathlib.Data.List.TakeWhile
import PackedForest.Text.Blank
import PackedForest.Text.Digit

/-!
# Words and blanks

Words have no blanks in them, and blanks between and around words do not matter: a blank parts the
words of what stands before it from those of what follows (`Text.words_append_blank`), and trimming
keeps the words (`Text.words_trim`). A text that begins and ends with other characters is what is
left when blanks around it are trimmed (`Text.Tight.trim_padded`).
-/

namespace PackedForest.Text

/-- The text has no blanks. -/
def Solid (cs : List Char) : Prop := ∀ c ∈ cs, isBlank c = false

instance (cs : List Char) : Decidable (Solid cs) := List.decidableBAll _ cs

theorem Solid.of_isInfix {cs cs' : List Char} (h : Solid cs) (inside : cs' <:+: cs) : Solid cs' :=
  fun c listed => h c (inside.subset listed)

theorem Solid.cons {c : Char} {cs : List Char} (first : isBlank c = false) (h : Solid cs) :
    Solid (c :: cs) := List.forall_mem_cons.2 ⟨first, h⟩

theorem Solid.append {cs cs' : List Char} (h : Solid cs) (h' : Solid cs') : Solid (cs ++ cs') :=
  List.forall_mem_append.2 ⟨h, h'⟩

/-- No digit is a blank. -/
theorem isBlank_of_isDigit {c : Char} (digit : isDigit c = true) : isBlank c = false := by
  have apart : ∀ d ∈ digitPoints, ∀ b ∈ blankPoints, d.2 < b.1 ∨ b.2 < d.1 := by decide +kernel
  obtain ⟨d, known, above, below⟩ := CodePoints.contains_eq_true_iff.1 digit
  rw [← Bool.not_eq_true]
  intro blank
  obtain ⟨b, known', above', below'⟩ := CodePoints.contains_eq_true_iff.1 blank
  have := apart d known b known'
  omega

theorem isDigit_of_ascii {c : Char} (digit : c.isDigit = true) : isDigit c = true := by
  obtain ⟨above, below⟩ := Char.isDigit_iff_toNat.1 digit
  exact CodePoints.contains_eq_true_iff.2 ⟨(0x30, 0x39), List.mem_cons_self, above, below⟩

/-! ### The pieces of a text -/

section Pieces

variable {α : Type} {p : α → Bool}

theorem splitWhere_append_sep {sep : α} (parts : p sep = true) (before after : List α) :
    splitWhere p (before ++ sep :: after) = splitWhere p before ++ splitWhere p after := by
  induction before with
  | nil => simp [splitWhere, parts]
  | cons a before ih =>
      rw [List.cons_append, splitWhere, splitWhere, ih]
      split
      · rfl
      · cases pieces : splitWhere p before with
        | nil => exact absurd pieces (splitWhere_ne_nil p before)
        | cons piece pieces => rfl

/-- The first piece begins the text, and the others stand in it. -/
theorem splitWhere_isInfix (as : List α) {piece : List α} {pieces : List (List α)}
    (split : splitWhere p as = piece :: pieces) : piece <+: as ∧ ∀ x ∈ pieces, x <:+: as := by
  induction as generalizing piece pieces with
  | nil =>
      rw [splitWhere] at split
      cases split
      exact ⟨List.nil_prefix, by simp⟩
  | cons a as ih =>
      rw [splitWhere] at split
      split at split
      · cases split
        refine ⟨List.nil_prefix, fun x listed => ?_⟩
        cases rest : splitWhere p as with
        | nil => exact absurd rest (splitWhere_ne_nil p as)
        | cons first later =>
            obtain ⟨begins, stand⟩ := ih rest
            rw [rest] at listed
            rcases List.mem_cons.1 listed with rfl | inside
            · exact begins.isInfix.trans (List.infix_cons (List.infix_refl _))
            · exact (stand x inside).trans (List.infix_cons (List.infix_refl _))
      · cases rest : splitWhere p as with
        | nil => exact absurd rest (splitWhere_ne_nil p as)
        | cons first later =>
            obtain ⟨begins, stand⟩ := ih rest
            rw [rest] at split
            cases split
            exact ⟨List.cons_prefix_cons.2 ⟨rfl, begins⟩,
              fun x inside => (stand x inside).trans (List.infix_cons (List.infix_refl _))⟩

theorem infix_of_mem_splitWhere {as piece : List α} (listed : piece ∈ splitWhere p as) :
    piece <:+: as := by
  cases split : splitWhere p as with
  | nil => exact absurd split (splitWhere_ne_nil p as)
  | cons first later =>
      obtain ⟨begins, stand⟩ := splitWhere_isInfix as split
      rw [split] at listed
      rcases List.mem_cons.1 listed with rfl | inside
      · exact begins.isInfix
      · exact stand piece inside

theorem not_of_mem_splitWhere {as piece : List α} (listed : piece ∈ splitWhere p as) :
    ∀ a ∈ piece, p a = false := by
  induction as generalizing piece with
  | nil =>
      rw [splitWhere, List.mem_singleton] at listed
      simp [listed]
  | cons a as ih =>
      rw [splitWhere] at listed
      split at listed
      · rcases List.mem_cons.1 listed with rfl | later
        · simp
        · exact ih later
      · next other =>
          have here : p a = false := by simpa using other
          cases rest : splitWhere p as with
          | nil => exact absurd rest (splitWhere_ne_nil p as)
          | cons first later =>
              rw [rest] at listed ih
              rcases List.mem_cons.1 listed with rfl | inside
              · exact List.forall_mem_cons.2 ⟨here, ih List.mem_cons_self⟩
              · exact ih (List.mem_cons_of_mem _ inside)

end Pieces

/-! ### Words -/

@[simp] theorem words_nil : words [] = [] := rfl

theorem words_append_blank {c : Char} (blank : isBlank c = true) (before after : List Char) :
    words (before ++ c :: after) = words before ++ words after := by
  rw [words, splitWhere_append_sep blank, List.filter_append]
  rfl

theorem words_cons_blank {c : Char} (blank : isBlank c = true) (after : List Char) :
    words (c :: after) = words after := words_append_blank blank [] after

theorem words_of_solid {cs : List Char} (solid : Solid cs) (nonempty : cs ≠ []) :
    words cs = [cs] := by
  rw [words, splitWhere_of_forall_not solid]
  simp [nonempty]

theorem mem_words {cs word : List Char} (listed : word ∈ words cs) :
    word ≠ [] ∧ Solid word ∧ word <:+: cs := by
  obtain ⟨piece, nonempty⟩ := List.mem_filter.1 listed
  refine ⟨fun empty => ?_, not_of_mem_splitWhere piece, infix_of_mem_splitWhere piece⟩
  rw [empty] at nonempty
  cases nonempty

/-! ### Trimming -/

theorem words_blanks_append {blanks : List Char} (blank : ∀ c ∈ blanks, isBlank c = true)
    (cs : List Char) : words (blanks ++ cs) = words cs := by
  induction blanks with
  | nil => rfl
  | cons c blanks ih =>
      obtain ⟨first, later⟩ := List.forall_mem_cons.1 blank
      rw [List.cons_append, words_cons_blank first, ih later]

theorem words_append_blanks {blanks : List Char} (blank : ∀ c ∈ blanks, isBlank c = true)
    (cs : List Char) : words (cs ++ blanks) = words cs := by
  cases blanks with
  | nil => rw [List.append_nil]
  | cons c blanks =>
      obtain ⟨first, later⟩ := List.forall_mem_cons.1 blank
      rw [words_append_blank first, ← List.append_nil blanks, words_blanks_append later, words_nil,
        List.append_nil]

theorem exists_trimStart (cs : List Char) :
    ∃ blanks, (∀ c ∈ blanks, isBlank c = true) ∧ cs = blanks ++ trimStart cs :=
  ⟨cs.takeWhile isBlank, fun _ listed => List.mem_takeWhile_imp listed,
    List.takeWhile_append_dropWhile.symm⟩

theorem exists_trimEnd (cs : List Char) :
    ∃ blanks, (∀ c ∈ blanks, isBlank c = true) ∧ cs = trimEnd cs ++ blanks := by
  refine ⟨(cs.reverse.takeWhile isBlank).reverse,
    fun _ listed => List.mem_takeWhile_imp (List.mem_reverse.1 listed), ?_⟩
  rw [trimEnd, ← List.reverse_append, List.takeWhile_append_dropWhile, List.reverse_reverse]

theorem words_trimStart (cs : List Char) : words (trimStart cs) = words cs := by
  obtain ⟨blanks, blank, parts⟩ := exists_trimStart cs
  conv_rhs => rw [parts, words_blanks_append blank]

theorem words_trimEnd (cs : List Char) : words (trimEnd cs) = words cs := by
  obtain ⟨blanks, blank, parts⟩ := exists_trimEnd cs
  conv_rhs => rw [parts, words_append_blanks blank]

theorem words_trim (cs : List Char) : words (trim cs) = words cs := by
  rw [trim, words_trimEnd, words_trimStart]

theorem trimStart_isInfix (cs : List Char) : trimStart cs <:+: cs := by
  obtain ⟨blanks, -, parts⟩ := exists_trimStart cs
  exact ⟨blanks, [], by rw [List.append_nil, ← parts]⟩

theorem trimEnd_isInfix (cs : List Char) : trimEnd cs <:+: cs := by
  obtain ⟨blanks, -, parts⟩ := exists_trimEnd cs
  exact ⟨[], blanks, parts.symm⟩

theorem trim_isInfix (cs : List Char) : trim cs <:+: cs :=
  (trimEnd_isInfix _).trans (trimStart_isInfix cs)

/-- The text neither begins nor ends with a blank. -/
structure Tight (cs : List Char) : Prop where
  first : ∀ c ∈ cs.head?, isBlank c = false
  last : ∀ c ∈ cs.getLast?, isBlank c = false

theorem dropWhile_blanks {blanks cs : List Char} (blank : ∀ c ∈ blanks, isBlank c = true)
    (first : ∀ c ∈ cs.head?, isBlank c = false) : (blanks ++ cs).dropWhile isBlank = cs := by
  rw [List.dropWhile_append_of_pos blank]
  cases cs with
  | nil => rfl
  | cons c cs => rw [List.dropWhile_cons_of_neg (by simp [first c rfl])]

theorem Tight.trimEnd_padded {cs : List Char} (h : Tight cs) {after : List Char}
    (blank : ∀ c ∈ after, isBlank c = true) : trimEnd (cs ++ after) = cs := by
  rw [trimEnd, List.reverse_append, dropWhile_blanks, List.reverse_reverse]
  · exact fun c listed => blank c (List.mem_reverse.1 listed)
  · rw [List.head?_reverse]
    exact h.last

/-- Blanks around a text are trimmed, and no more. -/
theorem Tight.trim_padded {cs : List Char} (h : Tight cs) {before after : List Char}
    (blank : ∀ c ∈ before, isBlank c = true) (blank' : ∀ c ∈ after, isBlank c = true) :
    trim (before ++ cs ++ after) = cs := by
  have start : trim (before ++ cs ++ after) = trimEnd (cs ++ after) := by
    cases cs with
    | nil =>
        rw [List.append_nil, trim, trimStart, List.dropWhile_append_of_pos blank,
          List.dropWhile_eq_nil_iff.2 blank', h.trimEnd_padded blank']
        rfl
    | cons c cs =>
        rw [trim, trimStart, List.append_assoc, dropWhile_blanks blank]
        exact fun d here => h.first d here
  rw [start, h.trimEnd_padded blank']

theorem Tight.trim_eq {cs : List Char} (h : Tight cs) : trim cs = cs := by
  have padded : trim ([] ++ cs ++ []) = cs := h.trim_padded (by simp) (by simp)
  rwa [List.nil_append, List.append_nil] at padded

end PackedForest.Text
