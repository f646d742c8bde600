/-!
# Reachability along links

A link leads from its first component to its second. The search takes every link at most once:
the links that leave a vertex are removed when the vertex is visited.
-/

namespace PackedForest.Reachability

variable {α : Type} [DecidableEq α]

/-- The vertices that the links of a vertex lead to. -/
def targets (links : List (α × α)) (vertex : α) : List α :=
  (links.filter (·.1 = vertex)).map (·.2)

/-- The links that leave other vertices. -/
def without (links : List (α × α)) (vertex : α) : List (α × α) := links.filter (·.1 ≠ vertex)

theorem length_targets_add_length_without (links : List (α × α)) (vertex : α) :
    (targets links vertex).length + (without links vertex).length = links.length := by
  induction links with
  | nil => rfl
  | cons link links ih =>
    simp only [targets, without, List.filter_cons, decide_not, List.length_map] at ih ⊢
    by_cases h : link.1 = vertex <;> simp [h] <;> omega

/-- Whether a vertex that waits to be visited leads to the target along the links. -/
def search (target : α) (links : List (α × α)) : (waiting : List α) → Bool
  | [] => false
  | vertex :: waiting =>
    if vertex = target then true
    else search target (without links vertex) (targets links vertex ++ waiting)
termination_by waiting => links.length + waiting.length
decreasing_by
  have := length_targets_add_length_without links vertex
  simp only [List.length_append, List.length_cons]
  omega

/-- Whether links lead from a vertex to another, or the two are the same. -/
def reaches (links : List (α × α)) (source target : α) : Bool := search target links [source]

end PackedForest.Reachability
