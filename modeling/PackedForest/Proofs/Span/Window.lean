import PackedForest.Proofs.Span.Cut

/-!
# Windows of a sentence

A window is a stretch of a sentence: `size` words that come after `offset` others. A span over the
window alone is moved on by the offset to stand in the sentence.

Of the spans of a sentence those inside a window come in the order in which the window by itself
would be filled (`upTo_filter_inside`).
-/

namespace PackedForest.Span

/-- The span, further on in the input. -/
def shift (offset : Nat) (s : Span) : Span := ⟨offset + s.start, offset + s.stop⟩

/-- The span lies in the window of `size` words after the first `offset` ones. -/
def Inside (offset size : Nat) (s : Span) : Prop := offset ≤ s.start ∧ s.stop ≤ offset + size

instance (offset size : Nat) (s : Span) : Decidable (s.Inside offset size) :=
  inferInstanceAs (Decidable (_ ∧ _))

variable {offset size : Nat} {s t : Span}

@[simp] theorem shift_start : (s.shift offset).start = offset + s.start := rfl

@[simp] theorem shift_stop : (s.shift offset).stop = offset + s.stop := rfl

@[simp] theorem shift_inj : s.shift offset = t.shift offset ↔ s = t := by
  cases s
  cases t
  simp [shift]

@[simp] theorem shift_zero : s.shift 0 = s := by
  cases s
  simp [shift]

@[simp] theorem inside_shift : (s.shift offset).Inside offset size ↔ s.stop ≤ size := by
  simp [Inside]

/-- A span in the window is one over the window alone, moved on. -/
theorem Inside.exists_shift (h : s.Inside offset size) (nonempty : s.start < s.stop) :
    ∃ t : Span, t.stop ≤ size ∧ t.shift offset = s := by
  obtain ⟨first, last⟩ := h
  refine ⟨⟨s.start - offset, s.stop - offset⟩, by dsimp only; omega, ?_⟩
  cases s
  simp only [shift, mk.injEq] at first ⊢
  dsimp only at nonempty
  omega

/-- The places from which spans of one width stay in the window. -/
theorem range_filter_inside {total wide : Nat} (fits : offset + size ≤ total) :
    (List.range (total - wide)).filter
        (fun start => (⟨start, start + wide + 1⟩ : Span).Inside offset size) =
      (List.range (size - wide)).map (offset + ·) := by
  have rising : ∀ n, (List.range n).Pairwise (· < ·) := fun n => List.pairwise_lt_range
  apply @List.Perm.eq_of_pairwise _ (· < ·)
  · intro a b _ _ less more
    exact absurd more (Nat.lt_asymm less)
  · exact (rising _).filter _
  · exact List.pairwise_map.2 ((rising _).imp fun less => Nat.add_lt_add_left less offset)
  · apply (List.perm_ext_iff_of_nodup (List.nodup_range.filter _)
      (List.nodup_range.map fun _ _ same => Nat.add_left_cancel same)).2
    intro start
    rw [List.mem_filter, decide_eq_true_iff, List.mem_range, List.mem_map]
    simp only [Inside, List.mem_range]
    constructor
    · rintro ⟨_, first, last⟩
      exact ⟨start - offset, by omega, by omega⟩
    · rintro ⟨start, before, rfl⟩
      omega

/-- Filling the sentence comes to the spans of a window in the order of the window alone. -/
theorem upTo_filter_inside {total : Nat} (fits : offset + size ≤ total) :
    (upTo total).filter (fun s => s.Inside offset size) = (upTo size).map (shift offset) := by
  have of_width : ∀ wide, ((List.range (total - wide)).map fun start =>
        (⟨start, start + wide + 1⟩ : Span)).filter (fun s => s.Inside offset size) =
      ((List.range (size - wide)).map fun start => (⟨start, start + wide + 1⟩ : Span)).map
        (shift offset) := by
    intro wide
    rw [List.filter_map, List.map_map]
    refine (congrArg (List.map _) (range_filter_inside fits)).trans ?_
    rw [List.map_map]
    refine List.map_congr_left fun start _ => ?_
    simp only [Function.comp_apply, shift, mk.injEq, true_and]
    omega
  rw [upTo, upTo, List.filter_flatMap, List.map_flatMap,
    List.flatMap_congr fun wide _ => of_width wide]
  obtain ⟨more, rfl⟩ := Nat.exists_eq_add_of_le (Nat.le_trans (Nat.le_add_left _ _) fits)
  rw [List.range_add, List.flatMap_append]
  -- No span of the window is wider than the window.
  have wider : ((List.range more).map (size + ·)).flatMap (fun wide =>
      ((List.range (size - wide)).map fun start => (⟨start, start + wide + 1⟩ : Span)).map
        (shift offset)) = [] := by
    rw [List.flatMap_eq_nil_iff]
    intro wide beyond
    obtain ⟨j, -, rfl⟩ := List.mem_map.1 beyond
    rw [Nat.sub_eq_zero_of_le (Nat.le_add_right size j)]
    rfl
  rw [wider, List.append_nil]

end PackedForest.Span
