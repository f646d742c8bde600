import PackedForest.Proofs.Graph.RoundTrip
import PackedForest.Proofs.Related
import PackedForest.Proofs.Trie.Lookup

/-!
# Forests that agree with themselves

Graphs are compared with a tolerance for probabilities and feature values. The difference of a
number that is not finite from any number is infinite or no number, and so within no tolerance. A
finite number differs from itself by zero. So a graph agrees with itself if its numbers are finite
(`Graph.agrees_self`), and a graph with a feature value that is not finite agrees with none
(`Graph.isFinite_of_agrees`).
-/

namespace PackedForest

open Float.Model

/-! ### Differences -/

theorem unpack_le {x y : Float} : x ≤ y ↔ x.toModel.unpack.le y.toModel.unpack = true :=
  decide_eq_true_iff

/-- What lies between two finite numbers is finite. -/
theorem isFinite_of_between {low x high : Float} (low_finite : low.isFinite = true)
    (high_finite : high.isFinite = true) (above : low ≤ x) (below : x ≤ high) :
    x.isFinite = true := by
  rw [unpack_le] at above below
  change low.toModel.unpack.isFinite = true at low_finite
  change high.toModel.unpack.isFinite = true at high_finite
  change x.toModel.unpack.isFinite = true
  generalize low.toModel.unpack = l at *
  generalize high.toModel.unpack = h at *
  generalize x.toModel.unpack = u at *
  cases u with
  | infinity sign =>
      cases sign with
      | positive => cases h <;> cases high_finite <;> cases below
      | negative => cases l <;> cases low_finite <;> cases above
  | notANumber => cases h <;> cases below
  | zero sign => rfl
  | finite sign mantissa exponent positive => rfl

theorem isFinite_of_isProbability {x : Float} (h : isProbability x = true) : x.isFinite = true := by
  obtain ⟨above, below⟩ := Bool.and_eq_true_iff.1 h
  exact isFinite_of_between (by decide +kernel : (0.0 : Float).isFinite = true)
    (by decide +kernel : (1.0 : Float).isFinite = true) (of_decide_eq_true above)
    (of_decide_eq_true below)

/-- A finite number differs from itself by zero. -/
theorem sub_self_of_isFinite {x : Float} (finite : x.isFinite = true) : x - x = 0.0 := by
  have zero : UnpackedFloat.sub .binary64 x.toModel.unpack x.toModel.unpack = .zero .positive := by
    change x.toModel.unpack.isFinite = true at finite
    cases unpacked : x.toModel.unpack with
    | infinity sign =>
        rw [unpacked] at finite
        cases finite
    | notANumber =>
        rw [unpacked] at finite
        cases finite
    | zero sign => cases sign <;> rfl
    | finite sign mantissa exponent positive =>
        change UnpackedFloat.normalize .binary64 (sign.apply _ - sign.apply _) _ .positive = _
        rw [Int.sub_self]
        rfl
  change Float.ofModel (pack (UnpackedFloat.sub .binary64 x.toModel.unpack x.toModel.unpack)) = _
  rw [zero]
  decide +kernel

/-- The difference of a number that is not finite from any number is not finite either. -/
theorem sub_of_not_isFinite {u : UnpackedFloat} (other : u.isFinite = false) (w : UnpackedFloat) :
    w.sub .binary64 u = .notANumber ∨ ∃ sign, w.sub .binary64 u = .infinity sign := by
  cases u with
  | infinity sign =>
      cases w with
      | infinity sign' =>
          by_cases opposite : (sign' == -sign) = true
          · exact .inr ⟨sign', if_pos opposite⟩
          · exact .inl (if_neg opposite)
      | notANumber => exact .inl rfl
      | zero sign' => exact .inr ⟨_, rfl⟩
      | finite sign' mantissa exponent positive => exact .inr ⟨_, rfl⟩
  | notANumber => cases w <;> exact .inl rfl
  | zero sign => cases other
  | finite sign mantissa exponent positive => cases other

/-- No number is close to one that is not finite. -/
theorem isFinite_of_close {x y bound : Float} (finite : bound.isFinite = true)
    (close : (y - x).abs ≤ bound) : x.isFinite = true := by
  rw [unpack_le] at close
  change bound.toModel.unpack.isFinite = true at finite
  change ((pack (pack (y.toModel.unpack.sub .binary64
    x.toModel.unpack)).unpack.abs).unpack.le bound.toModel.unpack) = true at close
  generalize bound.toModel.unpack = b at *
  rw [← Bool.not_eq_false]
  intro other
  rcases sub_of_not_isFinite other y.toModel.unpack with difference | ⟨sign, difference⟩
  · rw [difference] at close
    cases b <;> cases close
  · have infinite : (pack (pack (.infinity sign)).unpack.abs).unpack = .infinity .positive := by
      cases sign <;> rfl
    rw [difference, infinite] at close
    cases b <;> cases finite <;> cases close

/-! ### Feature vectors, edges and graphs -/

theorem Features.get?_of_mem {f : Features} {entry : WordId × Float}
    (member : entry ∈ f.entries) : f.get? entry.1 = some entry.2 := by
  refine lookup_of_mem ?_ member
  rw [List.Nodup, List.pairwise_map]
  exact f.sorted.imp Int.ne_of_lt

theorem Features.agrees_self {f : Features}
    (finite : ∀ entry ∈ f.entries, entry.2.isFinite = true) : f.agrees f = true := by
  refine Bool.and_eq_true_iff.2 ⟨beq_self_eq_true _, List.all_eq_true.2 fun entry member => ?_⟩
  rw [get?_of_mem member]
  dsimp only
  rw [sub_self_of_isFinite (finite entry member)]
  decide +kernel

theorem Features.isFinite_of_agrees {f g : Features} (h : f.agrees g = true) :
    ∀ entry ∈ f.entries, entry.2.isFinite = true := by
  intro entry member
  have close := List.all_eq_true.1 (Bool.and_eq_true_iff.1 h).2 entry member
  split at close
  · exact isFinite_of_close (by decide +kernel) (of_decide_eq_true close)
  · cases close

theorem Edge.agrees_self {e : Edge} (finite : ∀ x ∈ e.numbers, x.isFinite = true) :
    e.agrees e = true := by
  obtain ⟨probability, values⟩ := List.forall_mem_cons.1 finite
  have features : e.features.agrees e.features = true :=
    Features.agrees_self fun entry member => values entry.2 (List.mem_map_of_mem member)
  have close : (e.probability - e.probability).abs ≤ 1e-9 := by
    rw [sub_self_of_isFinite probability]
    decide +kernel
  simp [Edge.agrees, features, close]

/-- Graphs agree if their words and nodes do and each edge does with that of the other graph. -/
theorem Graph.agrees_iff {g h : Graph} : g.agrees h = true ↔
    (g.words = h.words ∧ g.nodes = h.nodes) ∧
      List.Forall₂ (fun e f : Edge => e.agrees f = true) g.edges.toList h.edges.toList := by
  rw [List.forall₂_iff_zip]
  simp only [Graph.agrees, Bool.and_eq_true, beq_iff_eq, ← Array.all_toList, Array.toList_zip,
    List.all_eq_true, Prod.forall, Array.length_toList, and_assoc]

/-- A graph with finite numbers agrees with itself. -/
theorem Graph.agrees_self {g : Graph} (finite : ∀ x ∈ g.numbers, x.isFinite = true) :
    g.agrees g = true := by
  refine agrees_iff.2 ⟨⟨rfl, rfl⟩, List.forall₂_same.2 fun e member => Edge.agrees_self ?_⟩
  exact fun x ofEdge => finite x (List.mem_flatMap.2 ⟨e, member, ofEdge⟩)

/-- A graph with a feature value that is not finite agrees with none. -/
theorem Graph.isFinite_of_agrees {g h : Graph} (agree : g.agrees h = true) :
    ∀ e ∈ g.edges.toList, ∀ entry ∈ e.features.entries, entry.2.isFinite = true := by
  intro e member
  obtain ⟨f, -, agree⟩ := exists_of_forall₂_left (agrees_iff.1 agree).2 member
  simp only [Edge.agrees, Bool.and_eq_true] at agree
  exact Features.isFinite_of_agrees agree.1.1.2

end PackedForest
