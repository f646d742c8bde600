import Mathlib.Data.List.Nodup
import PackedForest.Span

/-!
# Cuts of a span

A cut parts a span into consecutive pieces, none of them empty. `IsCut` says so one piece at a
time, and `cuts` lists the cuts into a given number of pieces, each of them once.

The pieces of a cut lie within the span, and if there are two or more of them, each is narrower
than the span. In the order in which spans are filled, no span comes after one that it lies
within, so the pieces of a cut come first.
-/

namespace PackedForest.Span

/-- Every position of the span is one of the other. -/
def Within (s t : Span) : Prop := t.start ≤ s.start ∧ s.stop ≤ t.stop

theorem Within.refl (span : Span) : span.Within span := ⟨Nat.le_refl _, Nat.le_refl _⟩

/-- The pieces follow one another, are not empty, and fill the span. -/
def IsCut (span : Span) : List Span → Prop
  | [] => span.start = span.stop
  | piece :: pieces => piece.start = span.start ∧ piece.start < piece.stop ∧
      IsCut ⟨piece.stop, span.stop⟩ pieces

/-- The cuts of a span into a number of pieces, those with a narrower first piece first. -/
def cuts : (count : Nat) → Span → List (List Span)
  | 0, span => if span.start = span.stop then [[]] else []
  | count + 1, span =>
    (List.range (span.stop - span.start)).flatMap fun more =>
      (cuts count ⟨span.start + more + 1, span.stop⟩).map
        (⟨span.start, span.start + more + 1⟩ :: ·)

theorem IsCut.start_le_stop {span : Span} {pieces : List Span} (h : span.IsCut pieces) :
    span.start ≤ span.stop := by
  induction pieces generalizing span with
  | nil => exact Nat.le_of_eq h
  | cons piece pieces ih =>
      obtain ⟨first, nonempty, rest⟩ := h
      calc span.start = piece.start := first.symm
        _ ≤ piece.stop := Nat.le_of_lt nonempty
        _ ≤ span.stop := ih rest

/-- There are no more pieces than positions. -/
theorem IsCut.length_le {span : Span} {pieces : List Span} (h : span.IsCut pieces) :
    pieces.length ≤ span.stop - span.start := by
  induction pieces generalizing span with
  | nil => exact Nat.zero_le _
  | cons piece pieces ih =>
      obtain ⟨first, nonempty, rest⟩ := h
      have bound := rest.start_le_stop
      have fewer := ih rest
      dsimp only at bound fewer
      rw [List.length_cons]
      omega

theorem mem_cuts {count : Nat} {span : Span} {pieces : List Span} :
    pieces ∈ cuts count span ↔ pieces.length = count ∧ span.IsCut pieces := by
  induction count generalizing span pieces with
  | zero =>
      rw [cuts]
      cases pieces with
      | nil => by_cases empty : span.start = span.stop <;> simp [IsCut, empty]
      | cons piece pieces => split <;> simp
  | succ count ih =>
      simp only [cuts, List.mem_flatMap, List.mem_range, List.mem_map, ih]
      constructor
      · rintro ⟨more, _, rest, ⟨length, cut⟩, rfl⟩
        exact ⟨congrArg (· + 1) length, rfl, Nat.lt_succ_of_le (Nat.le_add_right _ _), cut⟩
      · rintro ⟨length, cut⟩
        cases pieces with
        | nil => cases length
        | cons piece rest =>
            obtain ⟨first, nonempty, cut⟩ := cut
            have bound := cut.start_le_stop
            obtain ⟨more, stop⟩ := Nat.exists_eq_add_of_lt nonempty
            dsimp only at bound
            refine ⟨more, by omega, rest, ⟨Nat.succ.inj length, ?_⟩, ?_⟩
            · rwa [← first, ← stop]
            · rw [← first, ← stop]

theorem nodup_cuts (count : Nat) (span : Span) : (cuts count span).Nodup := by
  induction count generalizing span with
  | zero =>
      rw [cuts]
      split <;> simp
  | succ count ih =>
      rw [cuts, List.nodup_flatMap]
      constructor
      · intro more _
        exact (ih _).map fun _ _ same => (List.cons.inj same).2
      · refine List.nodup_range.imp fun {more more'} other => ?_
        intro pieces left right
        obtain ⟨_, _, rfl⟩ := List.mem_map.1 left
        obtain ⟨_, _, same⟩ := List.mem_map.1 right
        have stops := congrArg Span.stop (List.cons.inj same).1
        exact other (by simpa using stops.symm)

theorem IsCut.within {span : Span} {pieces : List Span} (h : span.IsCut pieces) {piece : Span}
    (member : piece ∈ pieces) : piece.Within span ∧ piece.start < piece.stop := by
  induction pieces generalizing span with
  | nil => cases member
  | cons first pieces ih =>
      obtain ⟨start, nonempty, rest⟩ := h
      have bound := rest.start_le_stop
      rcases List.mem_cons.1 member with rfl | later
      · exact ⟨⟨Nat.le_of_eq start.symm, bound⟩, nonempty⟩
      · obtain ⟨⟨after, before⟩, nonempty'⟩ := ih rest later
        refine ⟨⟨?_, before⟩, nonempty'⟩
        dsimp only at after
        omega

/-- With two pieces or more, no piece is the whole span. -/
theorem IsCut.ne_of_two_le {span : Span} {pieces : List Span} (h : span.IsCut pieces)
    (several : 2 ≤ pieces.length) {piece : Span} (member : piece ∈ pieces) : piece ≠ span := by
  rintro rfl
  match pieces, h with
  | first :: second :: pieces, ⟨start, nonempty, start', nonempty', rest⟩ =>
      have bound := rest.start_le_stop
      dsimp only at start' bound
      rcases List.mem_cons.1 member with rfl | later
      · omega
      · have cut : IsCut ⟨first.stop, piece.stop⟩ (second :: pieces) :=
          ⟨start', nonempty', rest⟩
        have after := (cut.within later).1.1
        dsimp only at after
        omega

/-- A piece within a span that is not the span covers fewer positions. -/
theorem Within.narrower {piece span : Span} (h : piece.Within span) (other : piece ≠ span)
    (nonempty : span.start < span.stop) :
    piece.stop - piece.start < span.stop - span.start := by
  obtain ⟨after, before⟩ := h
  have differ : piece.start ≠ span.start ∨ piece.stop ≠ span.stop := by
    by_contra same
    rw [not_or, not_not, not_not] at same
    cases piece
    cases span
    exact other (Span.mk.injEq .. ▸ same)
  omega

/-- The last piece stops with the span. -/
theorem IsCut.exists_last {span : Span} {pieces : List Span} (h : span.IsCut pieces)
    (some_piece : pieces ≠ []) : span.start < span.stop ∧
      ∃ last ∈ pieces, last.stop = span.stop := by
  induction pieces generalizing span with
  | nil => exact absurd rfl some_piece
  | cons piece pieces ih =>
      obtain ⟨first, nonempty, rest⟩ := h
      have bound := rest.start_le_stop
      refine ⟨by dsimp only at bound; omega, ?_⟩
      cases pieces with
      | nil => exact ⟨piece, List.mem_cons_self, rest⟩
      | cons next pieces =>
          obtain ⟨-, last, member, stop⟩ := ih rest (List.cons_ne_nil _ _)
          exact ⟨last, List.mem_cons_of_mem _ member, stop⟩

theorem mem_upTo {size : Nat} {span : Span} :
    span ∈ upTo size ↔ span.start < span.stop ∧ span.stop ≤ size := by
  simp only [upTo, List.mem_flatMap, List.mem_range, List.mem_map]
  constructor
  · rintro ⟨wide, _, start, _, rfl⟩
    dsimp only
    omega
  · rintro ⟨nonempty, bound⟩
    obtain ⟨wide, stop⟩ := Nat.exists_eq_add_of_lt nonempty
    refine ⟨wide, by omega, span.start, by omega, ?_⟩
    rw [← stop]

/-- A span is filled before those that it lies within. -/
theorem pairwise_upTo (size : Nat) : (upTo size).Pairwise fun s t => ¬ t.Within s := by
  rw [upTo, List.pairwise_flatMap]
  constructor
  · intro wide _
    rw [List.pairwise_map]
    refine List.pairwise_lt_range.imp fun {a b} before inside => ?_
    have := inside.2
    dsimp only at this
    omega
  · refine List.pairwise_lt_range.imp fun {wide wide'} narrower => ?_
    intro s left t right inside
    obtain ⟨a, _, rfl⟩ := List.mem_map.1 left
    obtain ⟨b, _, rfl⟩ := List.mem_map.1 right
    obtain ⟨after, before⟩ := inside
    dsimp only at after before
    omega

end PackedForest.Span
