import Mathlib.Data.List.Forall2

/-!
# Lists with related elements

Most results on two runs, or on a run and what it should have come to, are put as lists whose
elements are related in pairs. These are the ways in which such lists are built and taken apart. In
a list of keys with values a key is related to what is looked up under it.
-/

namespace PackedForest

/-- What is related to the elements of one list is related to their partners in another. -/
theorem forall₂_congr_of {α β γ : Type} {R : α → β → Prop} {S : α → γ → Prop} {T : β → γ → Prop}
    {as : List α} {bs : List β} (related : List.Forall₂ R as bs)
    (same : ∀ a, ∀ b ∈ bs, R a b → ∀ c, S a c ↔ T b c) {cs : List γ} :
    List.Forall₂ S as cs ↔ List.Forall₂ T bs cs := by
  induction related generalizing cs with
  | nil => rw [List.forall₂_nil_left_iff, List.forall₂_nil_left_iff]
  | @cons a b as bs first _ ih =>
      rw [List.forall₂_cons_left_iff, List.forall₂_cons_left_iff]
      refine exists_congr fun c => exists_congr fun cs => ?_
      rw [same a b List.mem_cons_self first c,
        ih fun a b later => same a b (List.mem_cons_of_mem _ later)]

theorem forall₂_congr_left {α β : Type} {R S : α → β → Prop} {as : List α} {bs : List β}
    (same : ∀ a ∈ as, ∀ b, R a b ↔ S a b) : List.Forall₂ R as bs ↔ List.Forall₂ S as bs :=
  forall₂_congr_of (R := Eq) (List.forall₂_same.2 fun _ _ => rfl)
    fun _ a listed equal => equal ▸ same a listed

theorem exists_forall₂ {α β : Type} {R : α → β → Prop} {as : List α}
    (each : ∀ a ∈ as, ∃ b, R a b) : ∃ bs, List.Forall₂ R as bs := by
  induction as with
  | nil => exact ⟨[], .nil⟩
  | cons a as ih =>
      obtain ⟨b, first⟩ := each a List.mem_cons_self
      obtain ⟨bs, rest⟩ := ih fun a later => each a (List.mem_cons_of_mem _ later)
      exact ⟨b :: bs, .cons first rest⟩

theorem exists_of_forall₂_left {α β : Type} {R : α → β → Prop} {as : List α} {bs : List β}
    (all : List.Forall₂ R as bs) {a : α} (member : a ∈ as) : ∃ b ∈ bs, R a b := by
  induction all with
  | nil => cases member
  | @cons a' b as bs first _ ih =>
      rcases List.mem_cons.1 member with rfl | later
      · exact ⟨b, List.mem_cons_self, first⟩
      · obtain ⟨b', listed, related⟩ := ih later
        exact ⟨b', List.mem_cons_of_mem _ listed, related⟩

/-- Related elements stand in their lists. -/
theorem forall₂_mem {α β : Type} {R : α → β → Prop} {as : List α} {bs : List β}
    (all : List.Forall₂ R as bs) : List.Forall₂ (fun a b => a ∈ as ∧ b ∈ bs ∧ R a b) as bs := by
  induction all with
  | nil => exact .nil
  | cons first _ ih =>
      refine .cons ⟨List.mem_cons_self, List.mem_cons_self, first⟩ (ih.imp ?_)
      rintro a b ⟨listed, listed', related⟩
      exact ⟨List.mem_cons_of_mem _ listed, List.mem_cons_of_mem _ listed', related⟩

theorem forall₂_and {α β : Type} {R S : α → β → Prop} {as : List α} {bs : List β}
    (first : List.Forall₂ R as bs) (second : List.Forall₂ S as bs) :
    List.Forall₂ (fun a b => R a b ∧ S a b) as bs := by
  induction first with
  | nil => exact .nil
  | cons here _ ih =>
      obtain ⟨here', later'⟩ := List.forall₂_cons.1 second
      exact .cons ⟨here, here'⟩ (ih later')

/-- Elements that are related to the same ones are related. -/
theorem forall₂_and_right {α β : Type} {R : α → β → Prop} {p : β → Prop} {as : List α}
    {bs : List β} :
    List.Forall₂ (fun a b => R a b ∧ p b) as bs ↔ List.Forall₂ R as bs ∧ ∀ b ∈ bs, p b := by
  induction as generalizing bs with
  | nil => simp +contextual
  | cons a as ih =>
      cases bs with
      | nil => simp
      | cons b bs => simp [ih, and_assoc, and_left_comm]

theorem forall₂_comp {α β γ : Type} {R : α → β → Prop} {S : β → γ → Prop} {T : α → γ → Prop}
    {as : List α} {bs : List β} {cs : List γ} (first : List.Forall₂ R as bs)
    (second : List.Forall₂ S bs cs) (through : ∀ a b c, R a b → S b c → T a c) :
    List.Forall₂ T as cs := by
  induction first generalizing cs with
  | nil =>
      cases second
      exact .nil
  | cons here _ ih =>
      obtain ⟨c, cs, here', later', rfl⟩ := List.forall₂_cons_left_iff.1 second
      exact .cons (through _ _ c here here') (ih later')

theorem forall₂_flatMap_same {α β γ : Type} {R : β → γ → Prop} {as : List α} {f : α → List β}
    {g : α → List γ} (each : ∀ a ∈ as, List.Forall₂ R (f a) (g a)) :
    List.Forall₂ R (as.flatMap f) (as.flatMap g) := by
  apply List.rel_flatten
  rw [List.forall₂_map_left_iff, List.forall₂_map_right_iff, List.forall₂_same]
  exact each

theorem optionRel_of_isSome_iff {α β : Type} {R : α → β → Prop} {x : Option α} {y : Option β}
    (both : x.isSome ↔ y.isSome) (each : ∀ a b, x = some a → y = some b → R a b) :
    Option.Rel R x y := by
  cases x with
  | none =>
      cases y with
      | none => exact .none
      | some b => exact Bool.noConfusion (both.2 rfl)
  | some a =>
      cases y with
      | none => exact Bool.noConfusion (both.1 rfl)
      | some b => exact .some (each a b rfl rfl)

theorem map_eq_map_of_forall₂ {α β γ : Type} {f : α → γ} {g : β → γ} {as : List α} {bs : List β}
    (same : List.Forall₂ (fun a b => f a = g b) as bs) : as.map f = bs.map g := by
  rw [← List.forall₂_eq_eq_eq, List.forall₂_map_left_iff, List.forall₂_map_right_iff]
  exact same

/-! ### Lists related to a part of another -/

theorem sublistForall₂_imp {α β : Type} {R S : α → β → Prop} (more : ∀ a b, R a b → S a b)
    {as : List α} {bs : List β} (part : List.SublistForall₂ R as bs) :
    List.SublistForall₂ S as bs := by
  obtain ⟨bs', related, kept⟩ := List.sublistForall₂_iff.1 part
  exact List.sublistForall₂_iff.2 ⟨bs', related.imp more, kept⟩

theorem sublist_of_sublistForall₂_eq {α : Type} {as bs : List α}
    (part : List.SublistForall₂ (· = ·) as bs) : as.Sublist bs := by
  obtain ⟨bs', same, kept⟩ := List.sublistForall₂_iff.1 part
  rw [List.forall₂_eq_eq_eq] at same
  exact same ▸ kept

theorem sublistForall₂_append {α β : Type} {R : α → β → Prop} {as as' : List α} {bs bs' : List β}
    (first : List.SublistForall₂ R as bs) (second : List.SublistForall₂ R as' bs') :
    List.SublistForall₂ R (as ++ as') (bs ++ bs') := by
  obtain ⟨cs, related, kept⟩ := List.sublistForall₂_iff.1 first
  obtain ⟨cs', related', kept'⟩ := List.sublistForall₂_iff.1 second
  exact List.sublistForall₂_iff.2 ⟨cs ++ cs', List.rel_append related related', kept.append kept'⟩

theorem sublistForall₂_flatMap {α β γ δ : Type} {S : α → β → Prop} {R : γ → δ → Prop}
    {as : List α} {bs : List β} (related : List.Forall₂ S as bs) {f : α → List γ} {g : β → List δ}
    (each : ∀ a b, S a b → List.SublistForall₂ R (f a) (g b)) :
    List.SublistForall₂ R (as.flatMap f) (bs.flatMap g) := by
  induction related with
  | nil => exact .nil
  | cons first _ ih =>
      rw [List.flatMap_cons, List.flatMap_cons]
      exact sublistForall₂_append (each _ _ first) ih

theorem sublistForall₂_flatMap_same {α γ δ : Type} {R : γ → δ → Prop} {as : List α}
    {f : α → List γ} {g : α → List δ} (each : ∀ a ∈ as, List.SublistForall₂ R (f a) (g a)) :
    List.SublistForall₂ R (as.flatMap f) (as.flatMap g) := by
  have listed : List.Forall₂ (fun a b => a = b ∧ a ∈ as) as as :=
    List.forall₂_same.2 fun a member => ⟨rfl, member⟩
  refine sublistForall₂_flatMap listed ?_
  rintro a _ ⟨rfl, member⟩
  exact each a member

/-! ### Keys with values -/

section Lookup

variable {α β : Type} [BEq α] {entries : List (α × β)} {a : α} {b : β}

/-- What is found stays found when more is added behind it. -/
theorem lookup_of_prefix {later : List (α × β)} (grown : entries <+: later)
    (known : entries.lookup a = some b) : later.lookup a = some b := by
  obtain ⟨more, rfl⟩ := grown
  rw [List.lookup_append, known]
  rfl

variable [LawfulBEq α]

theorem mem_of_lookup (known : entries.lookup a = some b) : (a, b) ∈ entries := by
  obtain ⟨before, after, rfl, -⟩ := List.lookup_eq_some_iff.1 known
  exact List.mem_append_right _ List.mem_cons_self

theorem lookup_of_mem (apart : (entries.map (·.1)).Nodup) (member : (a, b) ∈ entries) :
    entries.lookup a = some b := by
  obtain ⟨before, after, rfl⟩ := List.append_of_mem member
  refine List.lookup_eq_some_iff.2 ⟨before, after, rfl, fun x first => ?_⟩
  rw [List.map_append, List.map_cons, List.nodup_append] at apart
  exact bne_iff_ne.2 (apart.2.2 x.1 (List.mem_map_of_mem first) a List.mem_cons_self).symm

theorem lookup_eq_some_iff_mem (apart : (entries.map (·.1)).Nodup) :
    entries.lookup a = some b ↔ (a, b) ∈ entries :=
  ⟨mem_of_lookup, lookup_of_mem apart⟩

theorem lookup_eq_none_iff_notMem : entries.lookup a = none ↔ a ∉ entries.map (·.1) := by
  rw [List.lookup_eq_none_iff, List.mem_map, not_exists]
  refine forall_congr' fun x => ?_
  rw [bne_iff_ne, not_and, ne_comm]

end Lookup

end PackedForest
