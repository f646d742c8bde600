import PackedForest.Proofs.Graph.Built

/-!
# Graphs under refused operations

An operation on a graph checks and stores one thing after another, and a fault leaves the stores as
they are at this point. `Graph.Edit.steps` puts the operations down in this order, over a state that
outlives a fault. Every operation has made all of its checks when it first stores something: an edge
is put on the list of its head before it is stored itself, and what could fail is to find the head.
So each comes to what the operation on whole graphs says, and a fault leaves the graph as it was
(`Graph.Edit.run_steps`).

After any operations, refused ones included, the two stores of the graph agree
(`Graph.edited_spec`).
-/

namespace PackedForest

/-- Work on a graph that is left as it is when a fault ends the work. -/
abbrev Editing := ExceptT Fault (StateM Graph)

namespace Graph

/-- A result for whoever keeps the graph: a fault leaves it as it was. -/
def outcome {α : Type} (g : Graph) : Except Fault (α × Graph) → Except Fault α × Graph
  | .ok (a, h) => (.ok a, h)
  | .error f => (.error f, g)

end Graph

namespace Editing

/-- Changes a node where it is stored. -/
def changeNode (id : NodeId) (f : Node → Node) : Editing Unit := do
  let g ← get
  unless id < g.nodes.size do throw (.nodeOutOfRange id g.nodes.size)
  set { g with nodes := g.nodes.modify id f }

def addNode (r : NodeRecord) : Editing NodeId := do
  if let some id := r.id then throw (.nodeAlreadyAdded id)
  unless r.edges.isEmpty do throw .newNodeHasEdges
  let g ← get
  set { g with nodes := g.nodes.push (r.numbered g.nodes.size) }
  return g.nodes.size

def checkTails (tails : List NodeId) : Editing Unit :=
  forM tails fun tail => do
    unless tail < (← get).nodes.size do throw (.tailOutOfRange tail)

/-- The head lists the edge before it is stored. -/
def addEdge (r : EdgeRecord) : Editing EdgeId := do
  if let some id := r.id then throw (.edgeAlreadyAdded id)
  checkTails r.tails
  let id := (← get).edges.size
  changeNode r.head fun n => { n with edges := n.edges ++ [id] }
  modify fun g => { g with edges := g.edges.push (r.numbered id) }
  return id

/-- A new graph gets a node for each word, and then the words. -/
def ofWords (words : List WordId) : Editing Unit := do
  set Graph.empty
  forM words.zipIdx fun word => discard (addNode (.new word.1 ⟨word.2, word.2 + 1⟩))
  modify fun g => { g with words }

/-- What a caller may do to a node: its number and its edges are out of reach. -/
def writeNode (id : NodeId) (f : Node → Node) : Editing Unit :=
  changeNode id fun n => { f n with id := n.id, edges := n.edges }

section Run

variable {α β : Type} {x : Editing α} {g h : Graph}

theorem run_bind_ok {f : α → Editing β} {a : α} (first : x.run.run g = (.ok a, h)) :
    (x >>= f).run.run g = (f a).run.run h := by
  rw [ExceptT.run_bind, StateT.run_bind, first]
  rfl

theorem run_bind_error {f : α → Editing β} {fault : Fault}
    (first : x.run.run g = (.error fault, h)) : (x >>= f).run.run g = (.error fault, h) := by
  rw [ExceptT.run_bind, StateT.run_bind, first]
  rfl

theorem run_changeNode (id : NodeId) (f : Node → Node) (g : Graph) :
    (changeNode id f).run.run g =
      if id < g.nodes.size then (.ok (), { g with nodes := g.nodes.modify id f })
      else (.error (.nodeOutOfRange id g.nodes.size), g) := by
  unfold changeNode
  rw [run_bind_ok (x := get) (h := g) (a := g) rfl]
  split
  · rfl
  · rfl

theorem run_addNode (r : NodeRecord) (g : Graph) :
    (addNode r).run.run g = g.outcome (g.addNode r) := by
  unfold addNode Graph.addNode
  cases r.id with
  | some id => rfl
  | none =>
      dsimp only
      cases r.edges.isEmpty with
      | true => rfl
      | false => rfl

/-- The first tail that is no node of the graph is a fault. -/
theorem run_checkTails (tails : List NodeId) (g : Graph) : (checkTails tails).run.run g =
    match tails.find? (g.nodes.size ≤ ·) with
    | some tail => (.error (.tailOutOfRange tail), g)
    | none => (.ok (), g) := by
  unfold checkTails
  induction tails with
  | nil => rfl
  | cons tail tails ih =>
      rw [List.forM_cons]
      by_cases inside : tail < g.nodes.size
      · rw [List.find?_cons_of_neg (by simpa using inside), ← ih]
        refine run_bind_ok (a := ()) ?_
        rw [run_bind_ok (x := get) (h := g) (a := g) rfl, if_pos inside]
        rfl
      · rw [List.find?_cons_of_pos (by simpa using inside)]
        refine run_bind_error ?_
        rw [run_bind_ok (x := get) (h := g) (a := g) rfl, if_neg inside]
        rfl

theorem run_addEdge (r : EdgeRecord) (g : Graph) :
    (addEdge r).run.run g = g.outcome (g.addEdge r) := by
  unfold addEdge Graph.addEdge
  cases r.id with
  | some id => rfl
  | none =>
      have tails := run_checkTails r.tails g
      dsimp only
      cases outside : r.tails.find? (g.nodes.size ≤ ·) with
      | some tail =>
          rw [outside] at tails
          exact run_bind_error tails
      | none =>
          rw [outside] at tails
          refine (run_bind_ok tails).trans ?_
          rw [run_bind_ok (x := get) (h := g) (a := g) rfl]
          have head := run_changeNode r.head
            (fun n => { n with edges := n.edges ++ [g.edges.size] }) g
          dsimp only
          by_cases inside : r.head < g.nodes.size
          · rw [if_pos inside] at head ⊢
            exact (run_bind_ok head).trans rfl
          · rw [if_neg inside] at head ⊢
            exact run_bind_error head

theorem run_ofWords (words : List WordId) (g : Graph) :
    (ofWords words).run.run g = (.ok (), Graph.ofWords words) := by
  have nodes : ∀ (places : List (WordId × Nat)) (g : Graph),
      (forM places fun word =>
        (discard (addNode (.new word.1 ⟨word.2, word.2 + 1⟩)) : Editing PUnit)).run.run g =
      (.ok (), places.foldl (fun g word => g.pushNode (.new word.1 ⟨word.2, word.2 + 1⟩)) g) := by
    intro places
    induction places with
    | nil => exact fun _ => rfl
    | cons word places ih =>
        intro g
        rw [List.forM_cons, List.foldl_cons, ← ih]
        exact run_bind_ok rfl
  unfold ofWords
  rw [run_bind_ok (x := set Graph.empty) (h := Graph.empty) (a := ()) rfl]
  exact (run_bind_ok (nodes words.zipIdx .empty)).trans rfl

theorem run_writeNode (id : NodeId) (f : Node → Node) (g : Graph) :
    (writeNode id f).run.run g = g.outcome ((g.updateNode id f).map ((), ·)) := by
  rw [writeNode, run_changeNode, Graph.updateNode]
  split
  · rfl
  · rfl

end Run

end Editing

namespace Graph

/-- The operations that a caller has. -/
inductive Edit
  | new
  | ofWords (words : List WordId)
  | setWords (words : List WordId)
  | addNode (r : NodeRecord)
  | addEdge (r : EdgeRecord)
  | writeNode (id : NodeId) (f : Node → Node)

namespace Edit

/-- What an operation does, check by check and store by store. -/
def steps : Edit → Editing Unit
  | new => set Graph.empty
  | ofWords words => Editing.ofWords words
  | setWords words => modify fun g => { g with words }
  | addNode r => discard (Editing.addNode r)
  | addEdge r => discard (Editing.addEdge r)
  | writeNode id f => Editing.writeNode id f

/-- The graph that an operation makes of another, if it is not refused. -/
def result (g : Graph) : Edit → Except Fault Graph
  | new => .ok .empty
  | ofWords words => .ok (.ofWords words)
  | setWords words => .ok { g with words }
  | addNode r => (g.addNode r).map (·.2)
  | addEdge r => (g.addEdge r).map (·.2)
  | writeNode id f => g.updateNode id f

/-- The steps of an operation come to its result, and a fault leaves the graph as it was. -/
theorem run_steps (edit : Edit) (g : Graph) :
    edit.steps.run.run g = g.outcome ((edit.result g).map ((), ·)) := by
  have discarded : ∀ {α : Type} {x : Editing α} {result : Except Fault (α × Graph)},
      x.run.run g = g.outcome result →
      (discard x).run.run g = g.outcome ((result.map (·.2)).map ((), ·)) := by
    intro α x result run
    cases result with
    | ok made => exact Editing.run_bind_ok run
    | error fault => exact Editing.run_bind_error run
  cases edit with
  | new => rfl
  | ofWords words => exact Editing.run_ofWords words g
  | setWords words => rfl
  | addNode r => exact discarded (Editing.run_addNode r g)
  | addEdge r => exact discarded (Editing.run_addEdge r g)
  | writeNode id f => exact Editing.run_writeNode id f g

/-- The graphs that operations make, where they are not refused. -/
inductive Makes (g : Graph) : Edit → Graph → Prop
  | new : Makes g .new .empty
  | ofWords (words : List WordId) : Makes g (.ofWords words) (.ofWords words)
  | setWords (words : List WordId) : Makes g (.setWords words) { g with words }
  | addNode {r : NodeRecord} (fresh : r.id = none) (bare : r.edges = []) :
      Makes g (.addNode r) (g.pushNode r)
  | addEdge {r : EdgeRecord} (fresh : r.id = none) (head : r.head < g.nodes.size)
      (tails : ∀ t ∈ r.tails, t < g.nodes.size) : Makes g (.addEdge r) (g.pushEdge r)
  | writeNode {id : NodeId} (f : Node → Node) (known : id < g.nodes.size) :
      Makes g (.writeNode id f) (g.rewriteNode id f)

theorem makes_of_result {edit : Edit} {g h : Graph} (made : edit.result g = .ok h) :
    edit.Makes g h := by
  cases edit with
  | new =>
      cases made
      exact .new
  | ofWords words =>
      cases made
      exact .ofWords words
  | setWords words =>
      cases made
      exact .setWords words
  | addNode r =>
      rw [result] at made
      cases added : g.addNode r with
      | error fault => rw [added] at made; cases made
      | ok pair =>
          obtain ⟨id, made'⟩ := pair
          rw [added] at made
          cases made
          obtain ⟨fresh, bare, -, rfl⟩ := addNode_eq_ok_iff.1 added
          exact .addNode fresh bare
  | addEdge r =>
      rw [result] at made
      cases added : g.addEdge r with
      | error fault => rw [added] at made; cases made
      | ok pair =>
          obtain ⟨id, made'⟩ := pair
          rw [added] at made
          cases made
          obtain ⟨fresh, head, tails, -, rfl⟩ := addEdge_eq_ok_iff.1 added
          exact .addEdge fresh head tails
  | writeNode id f =>
      obtain ⟨known, rfl⟩ := updateNode_eq_ok_iff.1 made
      exact .writeNode f known

/-- The graph after an operation whose fault, if there is one, has been caught. -/
def caught (g : Graph) (edit : Edit) : Graph := (edit.steps.run.run g).2

/-- An operation makes a graph, or leaves the one that there was. -/
theorem makes_caught (g : Graph) (edit : Edit) :
    edit.Makes g (edit.caught g) ∨ edit.caught g = g := by
  rw [caught, run_steps]
  cases made : edit.result g with
  | ok h => exact .inl (makes_of_result made)
  | error fault => exact .inr rfl

theorem Makes.built {g h : Graph} {edit : Edit} (made : edit.Makes g h) (built : g.Built) :
    h.Built := by
  cases made with
  | new => exact .empty
  | ofWords words => exact .ofWords words
  | setWords words => exact .setWords words built
  | addNode fresh bare => exact built.pushNode fresh bare
  | addEdge fresh head tails => exact built.pushEdge fresh head tails
  | writeNode f known => exact .updateNode built (updateNode_eq_ok_iff.2 ⟨known, rfl⟩)

theorem built_caught {g : Graph} (built : g.Built) (edit : Edit) : (edit.caught g).Built := by
  rcases edit.makes_caught g with made | same
  · exact made.built built
  · rwa [same]

end Edit

/-- The graph after some operations, whether or not they were refused. -/
def edited (edits : List Edit) : Graph := edits.foldl Edit.caught .empty

theorem built_edited (edits : List Edit) : (edited edits).Built := by
  have run : ∀ (edits : List Edit) {g : Graph}, g.Built → (edits.foldl Edit.caught g).Built := by
    intro edits
    induction edits with
    | nil => exact fun built => built
    | cons edit edits ih => exact fun built => ih (Edit.built_caught built edit)
  exact run edits .empty

theorem Indexed.sorted_edges {g : Graph} (h : g.Indexed) {i : NodeId} {n : Node}
    (node : g.nodes[i]? = some n) : n.edges.Pairwise (· < ·) :=
  h.node_edges node ▸ g.sorted_building i

/-- Lists of increasing numbers repeat none. -/
theorem Indexed.listedOnce {g : Graph} (h : g.Indexed) : ∀ j < g.edges.size, g.ListedOnce j := by
  refine h.coherent.listedOnce_iff.2 fun n member => ?_
  obtain ⟨i, node⟩ := List.mem_iff_getElem?.1 member
  rw [Array.getElem?_toList] at node
  exact (h.sorted_edges node).imp Nat.ne_of_lt

/-- Whatever operations have been called, refused ones included: numbers are places, the list of a
node is increasing and holds the edges with this head, each edge is listed once, tails are nodes of
the graph, and a further operation that ends in a fault leaves the graph as it is. -/
theorem edited_spec (edits : List Edit) :
    (edited edits).Coherent ∧
    (∀ {i : NodeId} {n : Node}, (edited edits).nodes[i]? = some n →
      n.edges.Pairwise (· < ·) ∧
      ∀ j, j ∈ n.edges ↔ ∃ e, (edited edits).edges[j]? = some e ∧ e.head = i) ∧
    (∀ j < (edited edits).edges.size, (edited edits).ListedOnce j) ∧
    ∀ edit : Edit, match edit.steps.run.run (edited edits) with
      | (.ok _, g) => edit.result (edited edits) = .ok g
      | (.error fault, g) => edit.result (edited edits) = .error fault ∧ g = edited edits := by
  have indexed := (built_edited edits).indexed
  refine ⟨indexed.coherent, fun {i n} node => ⟨indexed.sorted_edges node, fun j => ?_⟩,
    indexed.listedOnce, fun edit => ?_⟩
  · rw [indexed.node_edges node]
    exact mem_building
  · rw [edit.run_steps]
    cases edit.result (edited edits) with
    | ok g => rfl
    | error fault => exact ⟨rfl, rfl⟩

end Graph

end PackedForest
