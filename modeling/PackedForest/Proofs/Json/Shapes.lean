import Mathlib.Data.List.Forall2
import PackedForest.Proofs.Json.Floats
import PackedForest.Proofs.Json.Strings

/-!
# Arrays and objects are read as they were written

Each item of an array is read as it was written, in its place before a comma or the closing bracket,
so all of them are (`reads_list`). The entries of an object change a state one after the other; if
each text takes the reader from one state to the next, the object takes it from the first to the
last (`reads_entries`). Records and feature vectors are objects of this kind.
-/

namespace PackedForest.Json

open Reader (Runs)

variable {α β σ : Type} {size : Nat} {rest : List Char}

theorem intercalate_comma (text : List Char) (texts : List (List Char)) :
    [','].intercalate (text :: texts) = text ++ texts.flatMap (',' :: ·) := by
  induction texts generalizing text with
  | nil => simp
  | cons text' texts ih =>
      rw [List.intercalate_cons_cons, ih, List.flatMap_cons]
      simp

theorem enclosed_cons (opening closing : Char) (text : List Char) (texts : List (List Char)) :
    enclosed opening closing (text :: texts) ++ rest =
      opening :: (text ++ (texts.flatMap (',' :: ·) ++ closing :: rest)) := by
  rw [enclosed, intercalate_comma]
  simp

/-- After an item comes another one or the closing bracket. -/
theorem parted_flatMap (texts : List (List Char)) {closing : Char} (parts : Parts closing) :
    Parted (texts.flatMap (',' :: ·) ++ closing :: rest) := by
  cases texts with
  | nil => exact .cons parts _
  | cons text texts => exact .cons (.inl rfl) _

namespace Reader.Runs

variable {c : Char} {cs : List Char}

theorem moreItems_first (opens : Opens c) :
    (moreItems true).Runs size (c :: cs) true (c :: cs) := by
  refine .bind (.peek? opens.1) ?_
  split
  · next none => cases none
  · next closed =>
      cases closed
      exact absurd rfl opens.2.2.1
  · exact .pure

theorem moreItems_comma (opens : Opens c) :
    (moreItems false).Runs size (',' :: c :: cs) true (c :: cs) := by
  refine .bind (.peek? rfl) (.bind .skip (.bind (.peek? opens.1) ?_))
  split
  · next none => cases none
  · next closed =>
      cases closed
      exact absurd rfl opens.2.2.1
  · exact .pure

theorem moreItems_closed (first : Bool) :
    (moreItems first).Runs size (']' :: cs) false (']' :: cs) := .bind (.peek? rfl) .pure

theorem moreKeys_first : (moreKeys true).Runs size ('"' :: cs) true ('"' :: cs) :=
  .bind (.peek? rfl) (.bind (.peek? rfl) .pure)

theorem moreKeys_comma : (moreKeys false).Runs size (',' :: '"' :: cs) true ('"' :: cs) :=
  .bind (.peek? rfl) (.bind .skip (.bind (.peek? rfl) .pure))

theorem moreKeys_closed (first : Bool) :
    (moreKeys first).Runs size ('\x7d' :: cs) false ('\x7d' :: cs) := .bind (.peek? rfl) .pure

theorem close (bracket : Bracket) :
    (Json.close bracket).Runs size (bracket.closing :: cs) () cs := by
  cases bracket
  · exact .bind (.peek? rfl) .skip
  · exact .bind (.peek? rfl) .skip

theorem colon : Json.colon.Runs size (':' :: cs) () cs := .bind (.peek? rfl) .skip

end Reader.Runs

/-! ### Values that may be absent -/

theorem reads_nullable {reader : Reader α} {write : α → List Char} {o : Option α}
    (h : ∀ a ∈ o, Reads reader (write a) a ∧ (write a).head? ≠ some 'n') :
    Reads (nullable reader) (optional write o) o := by
  cases o with
  | none =>
      exact ⟨⟨'n', _, rfl, by decide⟩, fun _ _ =>
        .bind (.peek? rfl) (.bind (.expect ['n', 'u', 'l', 'l']) .pure)⟩
  | some a =>
      obtain ⟨reads, other⟩ := h a rfl
      refine ⟨reads.opens, fun parted short => ?_⟩
      have run := reads.runs parted short
      obtain ⟨c, cs, written, opens⟩ := reads.opens
      rw [written] at run other
      rw [List.cons_append] at run
      rw [optional, written, List.cons_append]
      refine .bind (.peek? opens.1) ?_
      split
      · next null => exact absurd null other
      · exact .bind run .pure

/-! ### Arrays -/

section Items

variable {item : Reader α} {texts : List (List Char)} {as : List α}

/-- There are no more items than characters. -/
theorem length_le_of_reads (all : List.Forall₂ (Reads item) texts as) :
    as.length ≤ (texts.flatMap (',' :: ·)).length := by
  induction all with
  | nil => exact Nat.le_refl _
  | cons first _ ih =>
      rw [List.flatMap_cons, List.length_append, List.length_cons, List.length_cons]
      omega

theorem itemsFrom_later (all : List.Forall₂ (Reads item) texts as) {fuel : Nat}
    (enough : as.length < fuel)
    (short : (texts.flatMap (',' :: ·) ++ ']' :: rest).length < size) :
    (itemsFrom item fuel false).Runs size (texts.flatMap (',' :: ·) ++ ']' :: rest) as
      (']' :: rest) := by
  induction all generalizing fuel with
  | nil =>
      obtain ⟨fuel, rfl⟩ := Nat.exists_eq_succ_of_ne_zero (Nat.ne_of_gt enough)
      exact .bind (.moreItems_closed false) .pure
  | @cons text a texts as first _ ih =>
      obtain ⟨fuel, rfl⟩ := Nat.exists_eq_succ_of_ne_zero
        (Nat.ne_of_gt (Nat.zero_lt_of_lt enough))
      rw [List.flatMap_cons, List.append_assoc, List.cons_append] at short ⊢
      have shorter := Nat.lt_of_succ_lt short
      have run := first.runs (parted_flatMap texts (.inr (.inl rfl))) shorter
      have others := ih (Nat.lt_of_succ_lt_succ enough) (by
        rw [List.length_append] at shorter
        omega)
      obtain ⟨c, cs, rfl, opens⟩ := first.opens
      exact .bind (.moreItems_comma opens) (.bind run (.bind others .pure))

/-- Items that are read as they were written are read so one after another. -/
theorem reads_list (all : List.Forall₂ (Reads item) texts as) :
    Reads (list item) (array texts) as := by
  refine ⟨⟨'[', _, rfl, by decide⟩, fun {size rest} _ short => ?_⟩
  obtain ⟨fuel, rfl⟩ := Nat.exists_eq_succ_of_ne_zero (Nat.ne_of_gt (Nat.zero_lt_of_lt short))
  unfold array at short ⊢
  have items : ∀ {text : List Char}, (itemsFrom item (fuel + 1) true).Runs (fuel + 1) text as
      (']' :: rest) → (list item).Runs (fuel + 1) ('[' :: text) as rest := fun run =>
    .bind (.peek? rfl) (.bind .skip (.bind .budget (.bind run (.bind (.close .square) .pure))))
  cases all with
  | nil => exact items (.bind (.moreItems_closed true) .pure)
  | @cons text a texts as first others =>
      rw [enclosed_cons] at short ⊢
      have shorter := Nat.lt_of_succ_lt short
      have run := first.runs (parted_flatMap texts (.inr (.inl rfl))) shorter
      have fewer := length_le_of_reads others
      have later : (itemsFrom item fuel false).Runs (fuel + 1)
          (texts.flatMap (',' :: ·) ++ ']' :: rest) as (']' :: rest) := by
        simp only [List.length_cons, List.length_append] at short
        refine itemsFrom_later others (by omega) ?_
        simp only [List.length_cons, List.length_append]
        omega
      obtain ⟨c, cs, rfl, opens⟩ := first.opens
      exact items (.bind (.moreItems_first opens) (.bind run (.bind later .pure)))

theorem reads_pair {left : Reader α} {right : Reader β} {text text' : List Char} {a : α} {b : β}
    (first : Reads left text a) (second : Reads right text' b) :
    Reads (pair left right) (array [text, text']) (a, b) := by
  refine ⟨⟨'[', _, rfl, by decide⟩, fun {size rest} _ short => ?_⟩
  unfold array at short ⊢
  rw [enclosed_cons, List.flatMap_singleton] at short ⊢
  have shorter := Nat.lt_of_succ_lt short
  have run := first.runs (.cons (.inl rfl) _) shorter
  have run' : right.Runs size (text' ++ ']' :: rest) b (']' :: rest) := by
    refine second.runs (.cons (.inr (.inl rfl)) rest) ?_
    simp only [List.length_cons, List.length_append] at shorter ⊢
    omega
  obtain ⟨c, cs, rfl, opens⟩ := first.opens
  obtain ⟨c', cs', rfl, opens'⟩ := second.opens
  exact .bind (.peek? rfl) (.bind .skip
    (.bind (.bind (.moreItems_first opens) run)
      (.bind (.bind (.moreItems_comma opens') run') (.bind (.close .square) .pure))))

end Items

/-! ### Objects -/

/-- Texts of entries that take the reader from one state to another. Each begins with a key. -/
inductive Chain (entry : σ → Reader σ) : List (List Char) → σ → σ → Prop
  | nil (s : σ) : Chain entry [] s s
  | cons {text : List Char} {texts : List (List Char)} {s s' s'' : σ}
      (key : text.head? = some '"') (first : Reads (entry s) text s')
      (others : Chain entry texts s' s'') : Chain entry (text :: texts) s s''

section Entries

variable {entry : σ → Reader σ} {texts : List (List Char)} {s s' : σ}

/-- There are no more entries than characters. -/
theorem Chain.length_le (h : Chain entry texts s s') :
    texts.length ≤ (texts.flatMap (',' :: ·)).length := by
  induction h with
  | nil => exact Nat.le_refl _
  | cons _ _ _ ih =>
      rw [List.flatMap_cons, List.length_append, List.length_cons, List.length_cons]
      omega

theorem exists_key {text : List Char} (key : text.head? = some '"') : ∃ cs, text = '"' :: cs := by
  cases text with
  | nil => cases key
  | cons c cs =>
      cases key
      exact ⟨cs, rfl⟩

theorem entriesFrom_later (h : Chain entry texts s s') {fuel : Nat}
    (enough : texts.length < fuel)
    (short : (texts.flatMap (',' :: ·) ++ '\x7d' :: rest).length < size) :
    (entriesFrom entry fuel false s).Runs size (texts.flatMap (',' :: ·) ++ '\x7d' :: rest) s'
      ('\x7d' :: rest) := by
  induction h generalizing fuel with
  | nil =>
      obtain ⟨fuel, rfl⟩ := Nat.exists_eq_succ_of_ne_zero (Nat.ne_of_gt enough)
      exact .bind (.moreKeys_closed false) .pure
  | @cons text texts s s' s'' key first _ ih =>
      obtain ⟨fuel, rfl⟩ := Nat.exists_eq_succ_of_ne_zero
        (Nat.ne_of_gt (Nat.zero_lt_of_lt enough))
      rw [List.flatMap_cons, List.append_assoc, List.cons_append] at short ⊢
      have shorter := Nat.lt_of_succ_lt short
      have run := first.runs (parted_flatMap texts (.inr (.inr (.inl rfl)))) shorter
      have others := ih (Nat.lt_of_succ_lt_succ enough) (by
        rw [List.length_append] at shorter
        omega)
      obtain ⟨cs, rfl⟩ := exists_key key
      exact .bind .moreKeys_comma (.bind run others)

/-- All entries of an object, from its opening bracket on. -/
theorem entriesFrom_object (h : Chain entry texts s s') {text : List Char}
    (written : enclosed '\x7b' '\x7d' texts ++ rest = '\x7b' :: text)
    (short : (enclosed '\x7b' '\x7d' texts ++ rest).length < size) :
    (entriesFrom entry size true s).Runs size text s' ('\x7d' :: rest) := by
  obtain ⟨fuel, rfl⟩ := Nat.exists_eq_succ_of_ne_zero (Nat.ne_of_gt (Nat.zero_lt_of_lt short))
  cases h with
  | nil =>
      cases written
      exact .bind (.moreKeys_closed true) .pure
  | @cons text texts _ middle _ key first others =>
      rw [enclosed_cons] at written short
      cases written
      have shorter := Nat.lt_of_succ_lt short
      have run := first.runs (parted_flatMap texts (.inr (.inr (.inl rfl)))) shorter
      have fewer := others.length_le
      have later : (entriesFrom entry fuel false middle).Runs (fuel + 1)
          (texts.flatMap (',' :: ·) ++ '\x7d' :: rest) s' ('\x7d' :: rest) := by
        simp only [List.length_cons, List.length_append] at short
        refine entriesFrom_later others (by omega) ?_
        simp only [List.length_cons, List.length_append]
        omega
      obtain ⟨cs, rfl⟩ := exists_key key
      exact .bind .moreKeys_first (.bind run later)

/-- An object, each entry of which changes a state. -/
theorem reads_entries (h : Chain entry texts s s') :
    Reads (entries entry s) (enclosed '\x7b' '\x7d' texts) s' := by
  refine ⟨⟨'\x7b', _, rfl, by decide⟩, fun _ short => ?_⟩
  exact .bind (.peek? rfl) (.bind .skip (.bind .budget
    (.bind (entriesFrom_object h rfl short) (.bind (.close .curly) .pure))))

end Entries

/-! ### Integers as keys -/

theorem number_of_mem_int {i : Int} {c : Char} (member : c ∈ int i) :
    c = '-' ∨ c.isDigit = true := by
  unfold int at member
  split at member
  · exact (List.mem_cons.1 member).imp_right isDigit_of_mem_nat
  · exact .inr (isDigit_of_mem_nat member)

theorem escape_number {c : Char} (number : c = '-' ∨ c.isDigit = true) : escape c = [c] := by
  rcases number with rfl | digit
  · rfl
  · have visible : ¬ c.toNat < 0x20 := by
      have digits := (Bool.and_eq_true_iff.1 digit).1
      have zero : '0'.val ≤ c.val := of_decide_eq_true digits
      have above : '0'.val.toNat ≤ c.val.toNat := UInt32.le_iff_toNat_le.1 zero
      exact Nat.not_lt.2 (Nat.le_trans (by decide) above)
    unfold escape
    split <;> first | exact absurd digit (by decide) | exact if_neg visible

/-- No character of an integer is escaped. -/
theorem string_int (i : Int) : string (int i) = '"' :: (int i ++ ['"']) := by
  have plain : (int i).flatMap escape = int i := by
    rw [List.flatMap_congr fun c member => escape_number (number_of_mem_int member)]
    exact List.flatMap_singleton' _
  rw [string, plain]
  rfl

theorem Reader.Runs.intKey {low high i : Int} (above : low ≤ i) (below : i ≤ high)
    (least : -0x8000000000000000 ≤ i) (most : i < 0x10000000000000000)
    (short : (string (int i) ++ rest).length < size) :
    (Json.intKey low high).Runs size (string (int i) ++ rest) i rest := by
  rw [string_int, List.cons_append, List.append_assoc, List.singleton_append] at short ⊢
  have reads := reads_intBetween above below least most
  have run := reads.runs (.cons (by decide) rest) (Nat.lt_of_succ_lt short)
  obtain ⟨c, cs, written, -⟩ := reads.opens
  have number : c = '-' ∨ c.isDigit = true :=
    number_of_mem_int (written ▸ List.mem_cons_self : c ∈ int i)
  rw [written, List.cons_append] at run ⊢
  refine .bind .skip (.bind .next? (.check ?_ (.bind run (.bind .next? (.check ?_
    (.bind .skip .pure))))))
  · rcases number with rfl | digit
    · exact Bool.false_ne_true
    · simp [digit]
  · exact not_not_intro rfl
/-! ### Records -/

section Records

variable {fieldOf : σ → String → Reader σ} {s s' : σ}

/-- From the colon after the name of a field on, the reader takes its value and comes to the
state. -/
def FieldReads (reader : Reader σ) (value : List Char) (s' : σ) : Prop :=
  ∀ {size : Nat} {rest : List Char}, Parted rest → (':' :: (value ++ rest)).length < size →
    reader.Runs size (':' :: (value ++ rest)) s' rest

/-- The value of a field that was not given before. -/
theorem fieldReads {reader : Reader α} {value : List Char} {a : α} (reads : Reads reader value a)
    (f : Option α → σ) :
    FieldReads (do return f (← field none reader)) value (f (some a)) := fun parted short =>
  .bind (.bind .colon (.bind (reads.runs parted (Nat.lt_of_succ_lt short)) .pure)) .pure

/-- The fields of a record as it is written, each with what the reader comes to by it. -/
inductive Fields (fieldOf : σ → String → Reader σ) : List (String × List Char) → σ → σ → Prop
  | nil (s : σ) : Fields fieldOf [] s s
  | cons {name : String} {value : List Char} {fields : List (String × List Char)} {s s' s'' : σ}
      (first : FieldReads (fieldOf s name) value s') (others : Fields fieldOf fields s' s'') :
      Fields fieldOf ((name, value) :: fields) s s''

theorem Fields.chain {fields : List (String × List Char)} (h : Fields fieldOf fields s s') :
    Chain (fun s => do
        skip
        let name ← stringBody
        fieldOf s (String.ofList name))
      (fields.map fun field => string field.1.toList ++ ':' :: field.2) s s' := by
  induction h with
  | nil => exact .nil _
  | @cons name value fields s s' s'' first _ ih =>
      refine .cons rfl ⟨⟨'"', _, rfl, by decide⟩, fun {size rest} parted short => ?_⟩ ih
      rw [List.append_assoc, string_eq_cons] at short ⊢
      have shorter := Nat.lt_of_succ_lt short
      have named := stringBody_string name.toList shorter
      simp only [List.length_append, List.length_cons] at shorter
      have valued : (fieldOf s name).Runs size (':' :: (value ++ rest)) s' rest := by
        refine first parted ?_
        simp only [List.length_append, List.length_cons]
        omega
      rw [← String.ofList_toList (s := name)] at valued
      exact .bind .skip (.bind named valued)

/-- A record, read from its fields. -/
theorem reads_record {start : σ} {finish : σ → Reader α} {inOrder : Reader α}
    {fields : List (String × List Char)} {a : α} (h : Fields fieldOf fields start s)
    (finished : finish s = pure a) :
    Reads (record fieldOf start finish inOrder) (object fields) a := by
  refine ⟨⟨'\x7b', _, rfl, by decide⟩, fun _ short => ?_⟩
  refine .bind (.peek? rfl) (.bind .skip (.bind .budget
    (.bind (entriesFrom_object h.chain rfl short) (.bind ?_ (.bind (.close .curly) .pure)))))
  rw [finished]
  exact .pure

end Records

/-- One of several names, read from its string. -/
theorem reads_oneOf {valueOf? : String → Option α} {name : String} {a : α}
    (known : valueOf? name = some a) : Reads (oneOf valueOf?) (string name.toList) a := by
  refine ⟨⟨'"', _, rfl, by decide⟩, fun {size rest} parted short => ?_⟩
  have named := (reads_text name.toList).runs parted short
  rw [string_eq_cons] at named ⊢
  refine .bind (.peek? rfl) (.bind named ?_)
  rw [String.ofList_toList, known]
  exact .pure

end PackedForest.Json
