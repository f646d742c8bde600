import Mathlib.Logic.Relation
import PackedForest.Reachability

/-!
# The search follows links, and nothing else

`Linked links` is the one-step relation of a list of links. The search answers yes exactly when
the target lies at the end of a path from some vertex that waits, although it forgets the links
of every vertex it has visited. A search that keeps all links and a memory of the vertices it has
been at takes the same turns, so their number is bounded by that of the links (`reaches_exact`).

Links without a cycle stay without one when a link is added whose end does not lead back to its
start. This is the fact that the guard of the unary worklist rests on.
-/

namespace PackedForest

/-- A test that more things pass, one of them for the first time. -/
theorem countP_lt_of_imp {β : Type} {things : List β} {p q : β → Bool}
    (wider : ∀ y, p y = true → q y = true) {x : β} (member : x ∈ things) (gains : q x = true)
    (lacks : p x = false) : things.countP p < things.countP q := by
  obtain ⟨before, after, rfl⟩ := List.append_of_mem member
  have left := List.countP_mono_left (l := before) fun y _ => wider y
  have right := List.countP_mono_left (l := after) fun y _ => wider y
  rw [List.countP_append, List.countP_append, List.countP_cons_of_neg (by simp [lacks]),
    List.countP_cons_of_pos gains]
  omega

end PackedForest

namespace PackedForest.Reachability

open Relation

variable {α : Type}

/-- One step along a link. -/
def Linked (links : List (α × α)) (a b : α) : Prop := (a, b) ∈ links

/-- A path of no or more steps. -/
abbrev Leads (links : List (α × α)) : α → α → Prop := ReflTransGen (Linked links)

/-- No path of one or more steps returns to where it started. -/
def Acyclic (links : List (α × α)) : Prop := ∀ a, ¬ TransGen (Linked links) a a

theorem Leads.mono {links more : List (α × α)} (h : links ⊆ more) {a b : α}
    (path : Leads links a b) : Leads more a b :=
  ReflTransGen.mono (fun _ _ link => h link) a b path

theorem Acyclic.mono {links more : List (α × α)} (h : Acyclic more) (sub : links ⊆ more) :
    Acyclic links := fun a path => h a (TransGen.mono (fun _ _ link => sub link) a a path)

/-- Along links that have counterparts, so have paths. -/
theorem Leads.transfer {β : Type} {R : α → β → Prop} {links : List (α × α)} {links' : List (β × β)}
    (related : ∀ x ∈ links, ∃ y ∈ links', R x.1 y.1 ∧ R x.2 y.2)
    (unique : ∀ {a b b'}, R a b → R a b' → b = b') {a b : α} {a' : β} (start : R a a')
    (path : Leads links a b) : ∃ b', R b b' ∧ Leads links' a' b' := by
  induction path with
  | refl => exact ⟨a', start, .refl⟩
  | tail _ link ih =>
      obtain ⟨b', here, path⟩ := ih
      obtain ⟨⟨c, d⟩, link', here', there⟩ := related _ link
      cases unique here here'
      exact ⟨d, there, path.tail link'⟩

section Search

variable [DecidableEq α]

theorem mem_targets {links : List (α × α)} {vertex a : α} :
    a ∈ targets links vertex ↔ Linked links vertex a := by
  simp [targets, Linked]

theorem linked_without {links : List (α × α)} {vertex a b : α} :
    Linked (without links vertex) a b ↔ Linked links a b ∧ a ≠ vertex := by
  simp [without, Linked]

/-- A path either never leaves the vertex or can be cut at the last time it does. -/
theorem leads_without_or {links : List (α × α)} (vertex : α) {a target : α}
    (path : Leads links a target) :
    Leads (without links vertex) a target ∨
      ∃ b ∈ targets links vertex, Leads (without links vertex) b target := by
  induction path using ReflTransGen.head_induction_on with
  | refl => exact .inl .refl
  | @head a b link _ ih =>
      rcases ih with rest | later
      · by_cases here : a = vertex
        · subst here
          exact .inr ⟨b, mem_targets.2 link, rest⟩
        · exact .inl (.head (linked_without.2 ⟨link, here⟩) rest)
      · exact .inr later

theorem search_eq_true_iff {target : α} {links : List (α × α)} {waiting : List α} :
    search target links waiting = true ↔ ∃ a ∈ waiting, Leads links a target := by
  fun_induction search target links waiting with
  | case1 => simp
  | case2 links waiting => simpa using .inl .refl
  | case3 links vertex waiting other ih =>
      rw [ih]
      have fewer : without links vertex ⊆ links := List.filter_sublist.subset
      constructor
      · rintro ⟨a, member, path⟩
        rcases List.mem_append.1 member with next | waits
        · exact ⟨vertex, List.mem_cons_self, .head (mem_targets.1 next) (path.mono fewer)⟩
        · exact ⟨a, List.mem_cons_of_mem _ waits, path.mono fewer⟩
      · rintro ⟨a, member, path⟩
        rcases leads_without_or vertex path with direct | ⟨b, next, rest⟩
        · rcases List.mem_cons.1 member with rfl | waits
          · -- Nothing leaves the vertex any more, so it would have to be the target itself.
            rcases ReflTransGen.cases_head direct with same | ⟨b, link, _⟩
            · exact absurd same other
            · exact absurd rfl (linked_without.1 link).2
          · exact ⟨a, List.mem_append_right _ waits, direct⟩
        · exact ⟨b, List.mem_append_left _ next, rest⟩

theorem reaches_eq_true_iff {links : List (α × α)} {source target : α} :
    reaches links source target = true ↔ Leads links source target := by
  simp [reaches, search_eq_true_iff]

/-- The order of the links does not matter. -/
theorem reaches_reverse (links : List (α × α)) (source target : α) :
    reaches links.reverse source target = reaches links source target := by
  rw [Bool.eq_iff_iff, reaches_eq_true_iff, reaches_eq_true_iff]
  exact ⟨.mono (List.reverse_subset.2 (List.Subset.refl _)),
    .mono (List.subset_reverse.2 (List.Subset.refl _))⟩

end Search

theorem linked_cons {links : List (α × α)} {head tail a b : α} :
    Linked ((head, tail) :: links) a b ↔ (a = head ∧ b = tail) ∨ Linked links a b := by
  simp [Linked]

/-- A path through one more link either does not need it, or reaches its start and goes on from
its end without it. -/
theorem transGen_cons {links : List (α × α)} {head tail a b : α}
    (path : TransGen (Linked ((head, tail) :: links)) a b) :
    TransGen (Linked links) a b ∨ (Leads links a head ∧ Leads links tail b) ∨
      Leads links tail head := by
  induction path with
  | single link =>
      rcases linked_cons.1 link with ⟨rfl, rfl⟩ | link
      · exact .inr (.inl ⟨.refl, .refl⟩)
      · exact .inl (.single link)
  | tail _ link ih =>
      rcases linked_cons.1 link with ⟨rfl, rfl⟩ | link
      · rcases ih with first | ⟨_, again⟩ | back
        · exact .inr (.inl ⟨first.to_reflTransGen, .refl⟩)
        · exact .inr (.inr again)
        · exact .inr (.inr back)
      · rcases ih with first | ⟨first, rest⟩ | back
        · exact .inl (first.tail link)
        · exact .inr (.inl ⟨first, rest.tail link⟩)
        · exact .inr (.inr back)

theorem Acyclic.nil : Acyclic ([] : List (α × α)) := by
  intro a path
  obtain ⟨b, link, _⟩ := TransGen.head'_iff.1 path
  exact List.not_mem_nil link

/-- A link may be added as long as its end does not lead to its start. -/
theorem Acyclic.cons {links : List (α × α)} {head tail : α} (h : Acyclic links)
    (guard : ¬ Leads links tail head) : Acyclic ((head, tail) :: links) := by
  intro a path
  rcases transGen_cons path with cycle | ⟨before, after⟩ | back
  · exact h a cycle
  · exact guard (after.trans before)
  · exact guard back

/-- The end of a link never leads back to its start. -/
theorem Acyclic.not_leads {links : List (α × α)} {head tail : α} (h : Acyclic links)
    (link : Linked links head tail) : ¬ Leads links tail head := fun back =>
  h head (TransGen.head' link back)

section Rank

variable [DecidableEq α] {links : List (α × α)}

/-- Past a link without a cycle fewer things are within reach: what stands at its start is not. -/
theorem Acyclic.countP_reaches_lt (h : Acyclic links) {a b : α} (link : Linked links a b)
    {β : Type} {things : List β} {place : β → α} {x : β} (member : x ∈ things)
    (here : place x = a) :
    things.countP (fun y => reaches links b (place y)) <
      things.countP (fun y => reaches links a (place y)) := by
  have wider : ∀ y, reaches links b (place y) = true → reaches links a (place y) = true := by
    intro y path
    rw [reaches_eq_true_iff] at path ⊢
    exact .head link path
  have itself : reaches links a (place x) = true := by
    rw [here]
    exact reaches_eq_true_iff.2 .refl
  have not_back : reaches links b (place x) = false := by
    rw [here, ← Bool.not_eq_true, reaches_eq_true_iff]
    exact h.not_leads link
  exact countP_lt_of_imp wider member itself not_back

/-- The number of links that can be taken from a vertex on. -/
def rank (links : List (α × α)) (a : α) : Nat :=
  links.countP fun link => reaches links a link.1

theorem rank_le (links : List (α × α)) (a : α) : rank links a ≤ links.length :=
  List.countP_le_length

/-- Links without a cycle go down in rank, since none can be taken again after itself. -/
theorem Acyclic.rank_lt (h : Acyclic links) {a b : α} (link : Linked links a b) :
    rank links b < rank links a :=
  h.countP_reaches_lt link link rfl

end Rank

section Memory

variable [DecidableEq α]

/-- The links that leave vertices the search has not been at. -/
def unseen (links : List (α × α)) (seen : List α) : List (α × α) :=
  links.filter fun link => link.1 ∉ seen

/-- The search with all links at hand and a memory of the vertices it has been at: one of these
brings nothing when it comes up again. There is an answer if some turns are enough. -/
def searchSeen (links : List (α × α)) (target : α) : (turns : Nat) → (seen waiting : List α) →
    Option Bool
  | 0, _, _ => none
  | _ + 1, _, [] => some false
  | turns + 1, seen, vertex :: waiting =>
    if vertex = target then some true
    else if vertex ∈ seen then searchSeen links target turns seen waiting
    else searchSeen links target turns (vertex :: seen) (targets links vertex ++ waiting)

variable {links : List (α × α)} {seen : List α} {vertex : α}

theorem targets_unseen_of_mem (known : vertex ∈ seen) :
    targets (unseen links seen) vertex = [] := by
  simp only [targets, unseen, List.filter_filter, List.map_eq_nil_iff, List.filter_eq_nil_iff]
  rintro link - both
  simp only [Bool.and_eq_true, decide_eq_true_eq] at both
  exact both.2 (both.1 ▸ known)

theorem without_unseen_of_mem (known : vertex ∈ seen) :
    without (unseen links seen) vertex = unseen links seen := by
  refine List.filter_eq_self.2 fun link listed => decide_eq_true ?_
  rintro rfl
  exact of_decide_eq_true (List.mem_filter.1 listed).2 known

theorem targets_unseen_of_notMem (new : vertex ∉ seen) :
    targets (unseen links seen) vertex = targets links vertex := by
  rw [targets, targets, unseen, List.filter_filter]
  refine congrArg _ (List.filter_congr fun link _ => ?_)
  by_cases here : link.1 = vertex
  · simp [here, new]
  · simp [here]

theorem without_unseen (links : List (α × α)) (seen : List α) (vertex : α) :
    without (unseen links seen) vertex = unseen links (vertex :: seen) := by
  rw [without, unseen, unseen, List.filter_filter]
  exact List.filter_congr fun link _ => by simp

/-- The search that removes links does the same turns. Each turn takes a vertex that waits, and puts
only the targets of links in its place that were not taken before. -/
theorem searchSeen_eq (target : α) {turns : Nat} {waiting : List α}
    (enough : (unseen links seen).length + waiting.length < turns) :
    searchSeen links target turns seen waiting =
      some (search target (unseen links seen) waiting) := by
  induction turns generalizing seen waiting with
  | zero => exact absurd enough (Nat.not_lt_zero _)
  | succ turns ih =>
      cases waiting with
      | nil => rw [searchSeen, search]
      | cons vertex waiting =>
          rw [searchSeen, search]
          have taken := length_targets_add_length_without (unseen links seen) vertex
          rw [List.length_cons] at enough
          split
          · rfl
          split
          · next known =>
              rw [targets_unseen_of_mem known, without_unseen_of_mem known]
              exact ih (by omega)
          · next new =>
              rw [targets_unseen_of_notMem new] at taken ⊢
              rw [without_unseen] at taken ⊢
              exact ih (by rw [List.length_append]; omega)

/-- The search follows links from the source as far as they lead and ends with the right answer. A
search with a memory gives this answer too, after one turn for each link that it can take and two
more at the most. -/
theorem reaches_exact (links : List (α × α)) (source target : α) :
    (reaches links source target = true ↔ Leads links source target) ∧
      searchSeen links target (links.length + 2) [] [source] =
        some (reaches links source target) := by
  refine ⟨reaches_eq_true_iff, ?_⟩
  have all : unseen links [] = links := List.filter_eq_self.2 fun link _ => by simp
  rw [searchSeen_eq target (by rw [all]; exact Nat.lt_succ_self _), all, reaches]

end Memory

end PackedForest.Reachability
