import PackedForest.Features

/-!
# Vectors from lists of entries

The entries of a vector come one after another, the last value of a name counts, and no others are
in it (`Features.mem_ofList`). Entries that come in increasing order are the vector as they are
(`Features.entries_ofList`), so a vector is the one of its own entries.
-/

namespace PackedForest.Features

theorem mem_foldl_insert {entries : List (WordId × Float)} {f : Features} {entry : WordId × Float}
    (listed : entry ∈ (entries.foldl (fun f e => f.insert e.1 e.2) f).entries) :
    entry ∈ f.entries ∨ entry ∈ entries := by
  induction entries generalizing f with
  | nil => exact .inl listed
  | cons first entries ih =>
      rcases ih listed with old | later
      · rcases mem_insertEntry old with rfl | old
        · exact .inr List.mem_cons_self
        · exact .inl old
      · exact .inr (List.mem_cons_of_mem _ later)

/-- The vector of a list of entries has no others. -/
theorem mem_ofList {entries : List (WordId × Float)} {entry : WordId × Float}
    (listed : entry ∈ (ofList entries).entries) : entry ∈ entries :=
  (mem_foldl_insert listed).resolve_left List.not_mem_nil

/-- A name beyond those in a list of entries comes last. -/
theorem insertEntry_last {name : WordId} {value : Float} {entries : List (WordId × Float)}
    (beyond : ∀ entry ∈ entries, entry.1 < name) :
    insertEntry name value entries = entries ++ [(name, value)] := by
  induction entries with
  | nil => rfl
  | cons entry entries ih =>
      obtain ⟨here, later⟩ := List.forall_mem_cons.1 beyond
      rw [insertEntry, if_neg (Int.not_lt.2 (Int.le_of_lt here)), if_neg (Int.ne_of_gt here),
        ih later]
      rfl

/-- Entries in increasing order, behind others that come before them. -/
theorem entries_foldl_insert {f : Features} {entries : List (WordId × Float)}
    (sorted : (f.entries ++ entries).Pairwise (·.1 < ·.1)) :
    (entries.foldl (fun f entry => f.insert entry.1 entry.2) f).entries = f.entries ++ entries := by
  induction entries generalizing f with
  | nil => exact (List.append_nil _).symm
  | cons entry entries ih =>
      have beyond : ∀ other ∈ f.entries, other.1 < entry.1 := fun other member =>
        (List.pairwise_append.1 sorted).2.2 other member entry List.mem_cons_self
      have last : (f.insert entry.1 entry.2).entries = f.entries ++ [entry] :=
        insertEntry_last beyond
      have moved :
          (f.insert entry.1 entry.2).entries ++ entries = f.entries ++ entry :: entries := by
        rw [last, List.append_assoc, List.singleton_append]
      exact (ih (moved ▸ sorted)).trans moved

/-- Entries in increasing order are a vector as they are. -/
theorem entries_ofList {entries : List (WordId × Float)}
    (sorted : entries.Pairwise (·.1 < ·.1)) : (ofList entries).entries = entries :=
  entries_foldl_insert (f := empty) sorted

theorem ofList_entries (f : Features) : ofList f.entries = f := by
  have entries := entries_ofList f.sorted
  cases f
  cases same : ofList _
  rw [same] at entries
  cases entries
  rfl

end PackedForest.Features
