import PackedForest.Proofs.Text.Columns
import PackedForest.Rule.Reader

/-!
# Tokens and sides

A token is a gap if it has the form of one (`Token.ofText_eq_gap_iff`), and a word in quotes is that
word whatever it looks like (`Token.ofText_quoted`). A side is read by its words alone: the last two
may be `@ LABEL`, and an at sign at the end that is no label is refused (`SideText.read_eq`). So a
side that is written with a blank after each token, and its head after them, is read as these tokens
under that head (`SideText.read_of_words`).
-/

namespace PackedForest

open Text (Solid words)

/-- The text has no blanks and holds none of the marks. -/
structure Text.Safe (marks : List (List Char)) (cs : List Char) : Prop where
  solid : Solid cs
  free : ∀ mark ∈ marks, ¬ mark <:+: cs

theorem Text.Safe.of_isInfix {marks : List (List Char)} {cs cs' : List Char} (h : Safe marks cs)
    (inside : cs' <:+: cs) : Safe marks cs' where
  solid := h.solid.of_isInfix inside
  free mark listed holds := h.free mark listed (holds.trans inside)

/-- The words of a column that holds none of the marks. -/
theorem Text.safe_of_mem_words {marks : List (List Char)} {cs word : List Char}
    (free : ∀ mark ∈ marks, ¬ mark <:+: cs) (listed : word ∈ words cs) : Safe marks word := by
  obtain ⟨-, solid, inside⟩ := Text.mem_words listed
  exact ⟨solid, fun mark known holds => free mark known (holds.trans inside)⟩

open Text (Safe)

/-! ### Tokens -/

/-- The text has the form of a gap, with this name and this label. -/
structure Placeholder (text name label : List Char) : Prop where
  parts : text = 'x' :: name ++ ':' :: label
  name_ne_nil : name ≠ []
  digits : ∀ c ∈ name, Text.isDigit c = true
  label_ne_nil : label ≠ []

namespace Token

theorem gap?_eq_some_iff {text : List Char} {token : Token} : gap? text = some token ↔
    ∃ name label, token = .gap name label ∧ Placeholder text name label := by
  constructor
  · intro read
    unfold gap? at read
    split at read
    · next rest =>
        split at read
        · next d name l label digits after =>
            cases read
            refine ⟨_, _, rfl, ?_, List.cons_ne_nil _ _, fun c listed => ?_, List.cons_ne_nil _ _⟩
            · rw [List.cons_append, ← digits, ← after, List.takeWhile_append_dropWhile]
            · rw [← digits] at listed
              exact List.mem_takeWhile_imp listed
        · cases read
    · cases read
  · rintro ⟨name, label, rfl, rfl, name_ne_nil, digits, label_ne_nil⟩
    obtain ⟨d, name, rfl⟩ := List.exists_cons_of_ne_nil name_ne_nil
    obtain ⟨l, label, rfl⟩ := List.exists_cons_of_ne_nil label_ne_nil
    have colon : ¬ Text.isDigit ':' = true := by decide
    rw [List.cons_append, gap?, List.takeWhile_append_of_pos digits,
      List.dropWhile_append_of_pos digits, List.takeWhile_cons_of_neg colon,
      List.dropWhile_cons_of_neg colon, List.append_nil]
    rfl

theorem ofText_eq_gap_iff {text name label : List Char} :
    ofText text = .gap name label ↔ Placeholder text name label := by
  unfold ofText
  cases read : gap? text with
  | none =>
      refine ⟨nofun, fun form => ?_⟩
      cases read.symm.trans (gap?_eq_some_iff.2 ⟨name, label, rfl, form⟩)
  | some token =>
      obtain ⟨name', label', rfl, form⟩ := gap?_eq_some_iff.1 read
      refine ⟨fun same => ?_, fun form' => ?_⟩
      · cases same
        exact form
      · exact Option.some.inj (read.symm.trans (gap?_eq_some_iff.2 ⟨_, _, rfl, form'⟩))

/-- A word in quotes is that word. -/
theorem ofText_quoted (word : List Char) : ofText ('"' :: word ++ ['"']) = .word word := by
  have no_gap : gap? ('"' :: word ++ ['"']) = none := by simp [gap?]
  rw [ofText, no_gap, List.cons_append, unquote]
  simp

theorem unquote_isInfix (text : List Char) : unquote text <:+: text := by
  unfold unquote
  split
  · next rest =>
      split
      · exact (List.dropLast_prefix rest).isInfix.trans (List.infix_cons (List.infix_refl _))
      · exact List.infix_refl _
  · exact List.infix_refl _

/-- The text of a token: words are put in quotes. -/
def text : Token → List Char
  | word text => '"' :: text ++ ['"']
  | gap name label => 'x' :: name ++ ':' :: label

/-- The token can be written in a column that is parted by these marks. -/
def Writable (marks : List (List Char)) : Token → Prop
  | word text => Safe marks text
  | gap name label =>
    name ≠ [] ∧ (∀ c ∈ name, Text.isDigit c = true) ∧ label ≠ [] ∧ Safe marks label

theorem writable_ofText {marks : List (List Char)} {text : List Char} (safe : Safe marks text) :
    (ofText text).Writable marks := by
  cases read : ofText text with
  | word word =>
      have word_eq : word = unquote text := by
        unfold ofText at read
        cases none_found : gap? text with
        | none =>
            rw [none_found] at read
            exact (Token.word.inj read).symm
        | some token =>
            obtain ⟨name, label, rfl, -⟩ := gap?_eq_some_iff.1 none_found
            rw [none_found] at read
            cases read
      exact safe.of_isInfix (word_eq ▸ unquote_isInfix text)
  | gap name label =>
      have form := ofText_eq_gap_iff.1 read
      refine ⟨form.name_ne_nil, form.digits, form.label_ne_nil, safe.of_isInfix ?_⟩
      rw [form.parts]
      exact ⟨'x' :: name ++ [':'], [], by simp⟩

theorem text_ne_nil (token : Token) : token.text ≠ [] := by
  cases token <;> simp [text]

/-- A token is read as it was written. -/
theorem Writable.ofText_text {marks : List (List Char)} {token : Token}
    (h : token.Writable marks) : ofText token.text = token := by
  cases token with
  | word word => exact ofText_quoted word
  | gap name label => exact ofText_eq_gap_iff.2 ⟨rfl, h.1, h.2.1, h.2.2.1⟩

theorem Writable.solid_text {marks : List (List Char)} {token : Token}
    (h : token.Writable marks) : Solid token.text := by
  cases token with
  | word word => exact .cons rfl (h.solid.append (.cons rfl (by simp [Solid])))
  | gap name label =>
      refine .cons rfl (.append (fun c listed => ?_) (.cons rfl h.2.2.2.solid))
      exact Text.isBlank_of_isDigit (h.2.1 c listed)

end Token

/-! ### Sides -/

/-- The words of a side before `@ LABEL`, or all of them if they do not end like that. -/
def headless (side : List (List Char)) : List (List Char) :=
  if side.dropLast.getLast? = some ['@'] then side.dropLast.dropLast else side

/-- The label of `@ LABEL`. -/
def headLabel? (side : List (List Char)) : Option (List Char) :=
  if side.dropLast.getLast? = some ['@'] then side.getLast? else none

/-- An at sign comes last, with no other right before it. -/
def Dangling (side : List (List Char)) : Prop :=
  side.getLast? = some ['@'] ∧ side.dropLast.getLast? ≠ some ['@']

instance (side : List (List Char)) : Decidable (Dangling side) :=
  inferInstanceAs (Decidable (_ ∧ _))

namespace SideText

/-- A side is read by its words. -/
theorem read_eq (side : List Char) : read side =
    if Dangling (words side) then .error (.danglingHead side)
    else .ok ⟨(headless (words side)).map Token.ofText, headLabel? (words side)⟩ := by
  have reversed : words side = (words side).reverse.reverse := (List.reverse_reverse _).symm
  unfold read
  generalize (words side).reverse = back at reversed
  rw [reversed]
  match back with
  | [] => rfl
  | [word] =>
      by_cases sign : word = ['@']
      · subst sign
        rfl
      · simp [Dangling, headless, headLabel?, sign]
  | last :: word :: back =>
      by_cases sign : word = ['@']
      · subst sign
        simp [Dangling, headless, headLabel?]
      · by_cases dangling : last = ['@']
        · subst dangling
          simp [Dangling, sign]
        · simp [Dangling, headless, headLabel?, sign, dangling]

theorem headless_subset (side : List (List Char)) : headless side ⊆ side := by
  unfold headless
  split
  · exact List.Subset.trans (List.dropLast_subset _) (List.dropLast_subset _)
  · exact List.Subset.refl _

/-- What a column without marks holds can be written in such a column. -/
theorem writable_of_read {marks : List (List Char)} {side : List Char} {s : SideText}
    (free : ∀ mark ∈ marks, ¬ mark <:+: side) (result : read side = .ok s) :
    (∀ token ∈ s.tokens, token.Writable marks) ∧
      ∀ label ∈ s.head, label ≠ [] ∧ Safe marks label := by
  rw [read_eq] at result
  split at result
  · cases result
  · cases result
    constructor
    · intro token listed
      obtain ⟨text, inside, rfl⟩ := List.mem_map.1 listed
      exact Token.writable_ofText (Text.safe_of_mem_words free (headless_subset _ inside))
    · intro label head
      unfold headLabel? at head
      split at head
      · have listed := List.mem_of_getLast? head
        exact ⟨(Text.mem_words listed).1, Text.safe_of_mem_words free listed⟩
      · cases head

/-- A side as it is written: a blank after each token, and the head at the end. -/
def write (tokens : List Token) (head : List Char) : List Char :=
  tokens.flatMap (fun token => token.text ++ [' ']) ++ '@' :: ' ' :: head

section Write

variable {tokens : List Token} {head : List Char}

theorem words_write (solid : ∀ token ∈ tokens, Solid token.text) (solid_head : Solid head)
    (head_ne_nil : head ≠ []) :
    words (write tokens head) = tokens.map Token.text ++ [['@'], head] := by
  induction tokens with
  | nil =>
      have parted := Text.words_append_blank (c := ' ') rfl ['@'] head
      rw [Text.words_of_solid solid_head head_ne_nil] at parted
      exact parted
  | cons token tokens ih =>
      obtain ⟨first, later⟩ := List.forall_mem_cons.1 solid
      have parted := Text.words_append_blank (c := ' ') rfl token.text (write tokens head)
      rw [Text.words_of_solid first token.text_ne_nil, ih later] at parted
      rw [write, List.flatMap_cons, List.append_assoc, List.append_assoc]
      exact parted

/-- A side that has the words of one that was written is read as what was written. -/
theorem read_of_words {marks : List (List Char)} (writable : ∀ token ∈ tokens, token.Writable marks)
    (solid_head : Solid head) (head_ne_nil : head ≠ []) {side : List Char}
    (same : words side = words (write tokens head)) : read side = .ok ⟨tokens, some head⟩ := by
  have again : (tokens.map Token.text).map Token.ofText = tokens := by
    rw [List.map_map]
    conv_rhs => rw [← List.map_id tokens]
    exact List.map_congr_left fun token listed => (writable token listed).ofText_text
  rw [read_eq, same,
    words_write (fun token listed => (writable token listed).solid_text) solid_head head_ne_nil]
  generalize tokens.map Token.text = texts at again
  simp [Dangling, headless, headLabel?, again]

end Write

end SideText

end PackedForest
