import PackedForest.Proofs.Parser.Match
import PackedForest.Proofs.Rule.Shape

/-!
# Uses of a rule over a span

A rule is used over a span by way of a cut that gives every symbol of the source side a piece. The
piece of a word is this word in the sentence; the piece of a slot has a node under the labels of
the slot, and the nodes in the order of the slots are the tails.

`Rule.uses` lists the uses over all cuts. It takes no notice of tries, paths or the order of a
walk. For a rule that was read, `fillings_path` shows that a walk along its path finds the
same tails, each as often. The walk refuses gaps as wide as the span, which only a unary rule has.
-/

namespace PackedForest

/-- Whether a symbol may take a piece of a sentence. A word must be the one that stands there. -/
def Symbol.Fits (sentence : List WordId) : Symbol → Span → Prop
  | .word id, piece => piece.stop = piece.start + 1 ∧ sentence[piece.start]? = some (id : WordId)
  | .slot _, _ => True

instance (sentence : List WordId) :
    (symbol : Symbol) → (piece : Span) → Decidable (symbol.Fits sentence piece)
  | .word _, _ => inferInstanceAs (Decidable (_ ∧ _))
  | .slot _, _ => inferInstanceAs (Decidable True)

namespace Rule

/-- Every word of the source side stands at its piece. -/
def Fits (sentence : List WordId) (r : Rule) (pieces : List Span) : Prop :=
  ∀ x ∈ r.source.zip pieces, x.1.Fits sentence x.2

instance (sentence : List WordId) (r : Rule) (pieces : List Span) :
    Decidable (r.Fits sentence pieces) := inferInstanceAs (Decidable (∀ x ∈ _, _))

/-- The node under the labels of a slot on the piece that the slot takes. -/
def filler? (chart : Chart) (r : Rule) (pieces : List Span) (slot : Nat) : Option NodeId := do
  let piece ← (r.source.zip pieces).lookup (.slot slot)
  let labels ← r.slots[slot]?
  chart.find? piece labels

/-- The nodes that fill the slots, if each slot has one. -/
def tails? (chart : Chart) (r : Rule) (pieces : List Span) : Option (List NodeId) :=
  (List.range r.slots.length).mapM (r.filler? chart pieces)

/-- The tails of each use over a span. -/
def uses (sentence : List WordId) (chart : Chart) (span : Span) (r : Rule) : List (List NodeId) :=
  (span.cuts r.source.length).filterMap fun pieces =>
    if r.Fits sentence pieces then r.tails? chart pieces else none

end Rule

namespace Symbol

/-- The slots of a source side with their pieces. -/
def gaps (placed : List (Symbol × Span)) : List (Nat × Span) :=
  placed.filterMap fun x => x.1.slot?.map (·, x.2)

theorem gaps_word (id : Nat) (piece : Span) (placed : List (Symbol × Span)) :
    gaps ((.word id, piece) :: placed) = gaps placed := rfl

theorem gaps_slot (slot : Nat) (piece : Span) (placed : List (Symbol × Span)) :
    gaps ((.slot slot, piece) :: placed) = (slot, piece) :: gaps placed := rfl

theorem mem_gaps {placed : List (Symbol × Span)} {slot : Nat} {piece : Span} :
    (slot, piece) ∈ gaps placed ↔ (.slot slot, piece) ∈ placed := by
  induction placed with
  | nil => simp [gaps]
  | cons x placed ih =>
      obtain ⟨symbol, piece'⟩ := x
      cases symbol with
      | word id => simp [gaps_word, ih]
      | slot index => simp [gaps_slot, ih]

theorem map_fst_gaps (symbols : List Symbol) {pieces : List Span}
    (length : symbols.length = pieces.length) :
    (gaps (symbols.zip pieces)).map (·.1) = symbols.filterMap slot? := by
  rw [gaps, List.map_filterMap]
  conv_rhs => rw [← List.map_fst_zip (Nat.le_of_eq length), List.filterMap_map]
  refine List.filterMap_congr fun x _ => ?_
  obtain ⟨symbol, piece⟩ := x
  cases symbol <;> rfl

/-- The piece of a slot that stands at one place only. -/
theorem lookup_gaps {placed : List (Symbol × Span)} (apart : ((gaps placed).map (·.1)).Nodup)
    {slot : Nat} {piece : Span} (member : (slot, piece) ∈ gaps placed) :
    placed.lookup (.slot slot) = some piece := by
  induction placed with
  | nil => cases member
  | cons x placed ih =>
      obtain ⟨symbol, piece'⟩ := x
      cases symbol with
      | word id => exact ih apart member
      | slot index =>
          rw [gaps_slot] at apart member
          obtain ⟨new, later⟩ := List.nodup_cons.1 apart
          rcases List.mem_cons.1 member with same | old
          · cases same
            exact List.lookup_cons_self
          · have other : slot ≠ index := by
              rintro rfl
              exact new (List.mem_map.2 ⟨_, old, rfl⟩)
            rw [List.lookup_cons, beq_eq_false_iff_ne.2]
            · exact ih later old
            · exact fun same => other (Symbol.slot.inj same)

end Symbol

namespace Rule

/-- The nodes that fill the slots of some symbols on their pieces, symbol by symbol. -/
def fill? (sentence : List WordId) (chart : Chart) (r : Rule) :
    List Symbol → List Span → Option (List NodeId)
  | [], [] => some []
  | .word id :: symbols, piece :: pieces =>
    if (Symbol.word id).Fits sentence piece then fill? sentence chart r symbols pieces else none
  | .slot slot :: symbols, piece :: pieces =>
    (r.slots[slot]?.bind (chart.find? piece)).bind fun tail =>
      (fill? sentence chart r symbols pieces).map (tail :: ·)
  | _, _ => none

variable {sentence : List WordId} {chart : Chart} {r : Rule}

theorem mapM_congr {α β : Type} {as : List α} {f g : α → Option β} (same : ∀ a ∈ as, f a = g a) :
    as.mapM f = as.mapM g := by
  induction as with
  | nil => rfl
  | cons a as ih =>
      obtain ⟨here, later⟩ := List.forall_mem_cons.1 same
      rw [List.mapM_cons, List.mapM_cons, here, ih later]

theorem isSome_mapM_iff {α β : Type} {as : List α} {f : α → Option β} :
    (as.mapM f).isSome ↔ ∀ a ∈ as, (f a).isSome := by
  induction as with
  | nil => simp
  | cons a as ih =>
      rw [List.mapM_cons, List.forall_mem_cons, ← ih]
      cases f a with
      | none => simp
      | some b => cases as.mapM f <;> simp

theorem fill?_eq (symbols : List Symbol) {pieces : List Span}
    (length : symbols.length = pieces.length) : r.fill? sentence chart symbols pieces =
      if ∀ x ∈ symbols.zip pieces, x.1.Fits sentence x.2 then
        (Symbol.gaps (symbols.zip pieces)).mapM fun x => r.slots[x.1]?.bind (chart.find? x.2)
      else none := by
  induction symbols generalizing pieces with
  | nil =>
      cases pieces with
      | nil => simp [fill?, Symbol.gaps]
      | cons _ _ => cases length
  | cons symbol symbols ih =>
      cases pieces with
      | nil => cases length
      | cons piece pieces =>
          have rest := ih (Nat.succ.inj length)
          cases symbol with
          | word id =>
              rw [fill?, rest, List.zip_cons_cons, Symbol.gaps_word]
              by_cases stands : (Symbol.word id).Fits sentence piece
              · simp only [List.forall_mem_cons, stands, true_and, if_true]
              · simp only [List.forall_mem_cons, stands, false_and, if_false]
          | slot slot =>
              rw [fill?, rest, List.zip_cons_cons, Symbol.gaps_slot]
              have free : (Symbol.slot slot).Fits sentence piece := trivial
              simp only [List.forall_mem_cons, free, true_and, List.mapM_cons]
              split
              · cases r.slots[slot]?.bind (chart.find? piece) with
                | none => rfl
                | some tail =>
                    cases (Symbol.gaps (symbols.zip pieces)).mapM fun x =>
                      r.slots[x.1]?.bind (chart.find? x.2) <;> rfl
              · cases r.slots[slot]?.bind (chart.find? piece) <;> rfl

/-- The slots of a rule that was read come in the order of their pieces. -/
theorem WellFormed.tails?_eq (h : r.WellFormed) (chart : Chart) {pieces : List Span}
    (length : r.source.length = pieces.length) : r.tails? chart pieces =
      (Symbol.gaps (r.source.zip pieces)).mapM
        fun x => r.slots[x.1]?.bind (chart.find? x.2) := by
  have slots := Symbol.map_fst_gaps r.source length
  rw [h.slots_eq] at slots
  have apart : ((Symbol.gaps (r.source.zip pieces)).map (·.1)).Nodup := by
    rw [slots]
    exact List.nodup_range
  rw [tails?, ← slots, List.mapM_map]
  refine mapM_congr fun x member => ?_
  rw [Function.comp_apply, filler?, Symbol.lookup_gaps apart member]
  rfl

theorem WellFormed.fill?_source (h : r.WellFormed) {pieces : List Span}
    (length : r.source.length = pieces.length) : r.fill? sentence chart r.source pieces =
      if r.Fits sentence pieces then r.tails? chart pieces else none := by
  rw [fill?_eq _ length, h.tails?_eq chart length]
  rfl

theorem WellFormed.slot_lt (h : r.WellFormed) {slot : Nat} (member : .slot slot ∈ r.source) :
    slot < r.slots.length := by
  rw [← List.mem_range, ← h.slots_eq]
  exact List.mem_filterMap.2 ⟨_, member, rfl⟩

/-- All slots are filled once each piece of a slot has a node under its labels. -/
theorem WellFormed.isSome_tails?_iff (h : r.WellFormed) {pieces : List Span}
    (length : r.source.length = pieces.length) : (r.tails? chart pieces).isSome ↔
      ∀ slot piece labels, (.slot slot, piece) ∈ r.source.zip pieces →
        r.slots[slot]? = some labels → (chart.find? piece labels).isSome := by
  rw [h.tails?_eq chart length, isSome_mapM_iff]
  constructor
  · intro filled slot piece labels member stored
    have := filled (slot, piece) (Symbol.mem_gaps.2 member)
    rwa [stored, Option.bind_some] at this
  · rintro filled ⟨slot, piece⟩ member
    have placed := Symbol.mem_gaps.1 member
    have stored := List.getElem?_eq_getElem (h.slot_lt (List.of_mem_zip placed).1)
    rw [stored, Option.bind_some]
    exact filled slot piece _ placed stored

theorem mem_uses {span : Span} {tails : List NodeId} : tails ∈ r.uses sentence chart span ↔
    ∃ pieces, r.source.length = pieces.length ∧ span.IsCut pieces ∧ r.Fits sentence pieces ∧
      r.tails? chart pieces = some tails := by
  rw [uses, List.mem_filterMap]
  constructor
  · rintro ⟨pieces, listed, kept⟩
    obtain ⟨length, cut⟩ := Span.mem_cuts.1 listed
    split at kept
    · next fits => exact ⟨pieces, length.symm, cut, fits, kept⟩
    · cases kept
  · rintro ⟨pieces, length, cut, fits, filled⟩
    exact ⟨pieces, Span.mem_cuts.2 ⟨length.symm, cut⟩, by rw [if_pos fits, filled]⟩

/-- A rule for a single word has a use wherever this word stands. -/
theorem WellFormed.uses_word (h : r.WellFormed) {id start : Nat} (source : r.source = [.word id])
    (here : sentence[start]? = some (id : WordId)) :
    ∃ tails, tails ∈ r.uses sentence chart ⟨start, start + 1⟩ := by
  have length : r.source.length = [(⟨start, start + 1⟩ : Span)].length := by rw [source]; rfl
  have filled : (r.tails? chart [⟨start, start + 1⟩]).isSome := by
    rw [h.isSome_tails?_iff length, source]
    intro slot piece labels member
    simp at member
  obtain ⟨tails, filled⟩ := Option.isSome_iff_exists.1 filled
  have fits : r.Fits sentence [⟨start, start + 1⟩] := by
    rw [Rule.Fits, source]
    intro x member
    cases List.mem_singleton.1 member
    exact ⟨rfl, here⟩
  have cut : Span.IsCut ⟨start, start + 1⟩ [⟨start, start + 1⟩] := ⟨rfl, Nat.lt_succ_self _, rfl⟩
  exact ⟨tails, mem_uses.2 ⟨_, length, cut, fits, filled⟩⟩

/-- Unary rules apart, only a rule for a single word has a use for a single word. -/
theorem WellFormed.source_of_uses (h : r.WellFormed) (several : r.isUnary = false) {start : Nat}
    {tails : List NodeId} (use : tails ∈ r.uses sentence chart ⟨start, start + 1⟩) :
    ∃ id : Nat, r.source = [.word id] ∧ sentence[start]? = some (id : WordId) := by
  obtain ⟨pieces, length, cut, fits, -⟩ := mem_uses.1 use
  have fewer : pieces.length ≤ start + 1 - start := cut.length_le
  have some_symbol := List.length_pos_iff.2 h.source_ne_nil
  obtain ⟨symbol, source⟩ := List.length_eq_one_iff.1 (show r.source.length = 1 by omega)
  obtain ⟨piece, rfl⟩ := List.length_eq_one_iff.1 (show pieces.length = 1 by omega)
  cases symbol with
  | slot slot =>
      rw [isUnary, source] at several
      cases several
  | word id =>
      have stands : (Symbol.word id).Fits sentence piece :=
        fits (.word id, piece) (by rw [source]; exact List.mem_cons_self)
      rw [Symbol.Fits, cut.1] at stands
      exact ⟨id, source, stands.2⟩

/-- The words from a position on: the word there, then those from the next position on. -/
theorem words_cons {pos stop : Nat} (nonempty : pos < stop) (inside : pos < sentence.length) :
    (sentence.drop pos).take (stop - pos) =
      sentence[pos] :: (sentence.drop (pos + 1)).take (stop - (pos + 1)) := by
  rw [List.drop_eq_getElem_cons inside, show stop - pos = stop - (pos + 1) + 1 by omega,
    List.take_succ_cons]

/-- The words that follow some of those from a position on. -/
theorem drop_words {pos stop : Nat} (more : Nat) :
    ((sentence.drop pos).take (stop - pos)).drop more =
      (sentence.drop (pos + more)).take (stop - (pos + more)) := by
  rw [List.drop_take, List.drop_drop, Nat.sub_sub]

theorem step?_slot {slot : Nat} (stored : slot < r.slots.length) :
    r.step? (.slot slot) = some (.gap r.slots[slot]) := by
  rw [step?, List.getElem?_eq_getElem stored]
  rfl

/-- A word takes the first position alone. -/
theorem flatMap_cuts_word {id count pos stop : Nat} {symbols : List Symbol} (nonempty : pos < stop)
    (inside : pos < sentence.length) :
    ((List.range (stop - pos)).flatMap fun more =>
        (Span.cuts count ⟨pos + more + 1, stop⟩).filterMap fun pieces =>
          r.fill? sentence chart (.word id :: symbols) (⟨pos, pos + more + 1⟩ :: pieces)) =
      if sentence[pos] = id then
        (Span.cuts count ⟨pos + 1, stop⟩).filterMap (r.fill? sentence chart symbols)
      else [] := by
  have wider : ∀ more, ¬ (Symbol.word id).Fits sentence ⟨pos, pos + (more + 1) + 1⟩ := by
    rintro more ⟨one, _⟩
    dsimp only at one
    omega
  have first : (Symbol.word id).Fits sentence ⟨pos, pos + 0 + 1⟩ ↔ sentence[pos] = id := by
    simp [Symbol.Fits, List.getElem?_eq_getElem inside]
  rw [show stop - pos = stop - (pos + 1) + 1 by omega, List.range_succ_eq_map, List.flatMap_cons,
    List.flatMap_map]
  simp only [fill?, wider, if_false, first, List.filterMap_none, Match.flatMap_fun_nil,
    List.append_nil, Nat.add_zero]
  split
  · rfl
  · exact List.filterMap_none _

/-- A piece that leaves no words for the other symbols is in no cut. -/
theorem flatMap_cuts_last {start pos stop count : Nat} {β : Type}
    (proper : pos = start → count ≠ 0) (nonempty : pos < stop) (f : Nat → List Span → Option β) :
    ((List.range (stop - pos)).flatMap fun more =>
        (Span.cuts count ⟨pos + more + 1, stop⟩).filterMap (f more)) =
      (List.range (if pos = start then stop - (pos + 1) else stop - (pos + 1) + 1)).flatMap
        fun more => (Span.cuts count ⟨pos + more + 1, stop⟩).filterMap (f more) := by
  rw [show stop - pos = stop - (pos + 1) + 1 by omega]
  split
  · next here =>
      obtain ⟨count, rfl⟩ := Nat.exists_eq_succ_of_ne_zero (proper here)
      rw [List.range_succ, List.flatMap_append, List.flatMap_singleton, Span.cuts,
        show stop - (pos + (stop - (pos + 1)) + 1) = 0 by omega]
      exact List.append_nil _
  · rfl

/-- A walk along the path of some symbols finds the tails of all cuts. -/
theorem fillings_symbols {symbols : List Symbol}
    (stored : ∀ slot, .slot slot ∈ symbols → slot < r.slots.length) {start pos stop : Nat}
    (after : start ≤ pos) (before : pos ≤ stop) (bound : stop ≤ sentence.length)
    (proper : pos = start → ∀ slot, symbols ≠ [.slot slot]) :
    fillings chart start pos ((sentence.drop pos).take (stop - pos))
        (symbols.filterMap r.step?) =
      (Span.cuts symbols.length ⟨pos, stop⟩).filterMap (r.fill? sentence chart symbols) := by
  induction symbols generalizing pos with
  | nil =>
      rw [List.length_nil, Span.cuts]
      rcases Nat.eq_or_lt_of_le before with rfl | nonempty
      · simp [fillings, fill?]
      · rw [words_cons nonempty (Nat.lt_of_lt_of_le nonempty bound)]
        simp [fillings, Nat.ne_of_lt nonempty]
  | cons symbol symbols ih =>
      have stored_later := fun slot member => stored slot (List.mem_cons_of_mem _ member)
      obtain ⟨step, here⟩ : ∃ step, r.step? symbol = some step := by
        cases symbol with
        | word id => exact ⟨_, rfl⟩
        | slot slot => exact ⟨_, step?_slot (stored slot List.mem_cons_self)⟩
      rw [List.filterMap_cons_some here, List.length_cons, Span.cuts, List.filterMap_flatMap]
      simp only [List.filterMap_map, Function.comp_def]
      rcases Nat.eq_or_lt_of_le before with rfl | nonempty
      · rw [Nat.sub_self, List.take_zero, List.range_zero]
        cases step <;> rfl
      have inside := Nat.lt_of_lt_of_le nonempty bound
      rw [words_cons nonempty inside]
      cases symbol with
      | word id =>
          cases here
          rw [flatMap_cuts_word nonempty inside, fillings]
          split
          · exact ih stored_later (by omega) nonempty (by omega)
          · rfl
      | slot slot =>
          have known := stored slot List.mem_cons_self
          rw [step?_slot known] at here
          cases here
          have several : pos = start → symbols.length ≠ 0 := fun first none_left =>
            proper first slot (by rw [List.length_eq_zero_iff.1 none_left])
          have size : ((sentence.drop (pos + 1)).take (stop - (pos + 1))).length =
              stop - (pos + 1) := by
            rw [List.length_take, List.length_drop]
            omega
          rw [flatMap_cuts_last several nonempty, fillings, size]
          refine List.flatMap_congr fun more narrow => ?_
          have fits : pos + more + 1 ≤ stop := by
            rw [List.mem_range] at narrow
            split at narrow <;> omega
          simp only [fill?, List.getElem?_eq_getElem known, Option.bind_some]
          cases chart.find? ⟨pos, pos + more + 1⟩ r.slots[slot] with
          | none => exact (List.filterMap_none _).symm
          | some tail =>
              have further : start ≤ pos + more + 1 := by omega
              have rest := ih stored_later further fits (by omega)
              rw [drop_words, Nat.add_right_comm pos 1 more]
              dsimp only
              rw [rest, List.map_filterMap]
              rfl

/-- For a rule that was read and is not unary, a walk along its path finds the tails of all uses
over the span. -/
theorem WellFormed.fillings_path (h : r.WellFormed) (several : r.isUnary = false) {span : Span}
    (nonempty : span.start < span.stop) (bound : span.stop ≤ sentence.length) :
    fillings chart span.start span.start
        ((sentence.drop span.start).take (span.stop - span.start)) r.path =
      r.uses sentence chart span := by
  have proper : ∀ slot, r.source ≠ [.slot slot] := by
    intro slot single
    rw [isUnary, single] at several
    cases several
  rw [path, fillings_symbols (fun _ => h.slot_lt) (Nat.le_refl _) (Nat.le_of_lt nonempty) bound
    fun _ => proper]
  refine List.filterMap_congr fun pieces cut => ?_
  exact h.fill?_source (Span.mem_cuts.1 cut).1.symm

end Rule

end PackedForest
