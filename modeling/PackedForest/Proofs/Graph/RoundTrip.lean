import PackedForest.Proofs.Features
import PackedForest.Proofs.Graph.Checking
import PackedForest.Proofs.Json.Shapes
import PackedForest.Proofs.Rule.Shape

/-!
# Forests survive being written and read

A forest that the checks accept, whose numbers fit the ranges of the format, is read back from its
text as it was, field by field (`Graph.ofJson_toJson`). All that is asked for beyond is that each
probability and feature value is read back on its own. No word, label, number or source text is
special, and neither are vectors without features.
-/

namespace PackedForest

open Json (Reads ReadsBack)

instance (x : Float) : Decidable (ReadsBack x) := inferInstanceAs (Decidable (_ = _))

/-! ### Ranges of the format -/

/-- A word number has 32 bits and a sign. -/
def InWordRange (id : WordId) : Prop := (-0x80000000 : Int) ≤ id ∧ (id : Int) ≤ 0x7fffffff

instance (id : WordId) : Decidable (InWordRange id) := inferInstanceAs (Decidable (_ ∧ _))

/-- A word or a slot of a target side shares the range of word numbers with the other. -/
def Symbol.InRange : Symbol → Prop
  | word id => id < 0x80000000
  | slot index => index < 0x80000000

instance : (s : Symbol) → Decidable s.InRange
  | .word id => inferInstanceAs (Decidable (id < _))
  | .slot index => inferInstanceAs (Decidable (index < _))

structure Node.InRange (n : Node) : Prop where
  sym : InWordRange n.sym
  start : n.span.start < 0x10000000000000000
  stop : n.span.stop < 0x10000000000000000
  targetWords : ∀ words ∈ n.targetWords, ∀ word ∈ words, InWordRange word

instance (n : Node) : Decidable n.InRange :=
  decidable_of_iff (InWordRange n.sym ∧ n.span.start < 0x10000000000000000 ∧
      n.span.stop < 0x10000000000000000 ∧
      ∀ words ∈ n.targetWords, ∀ word ∈ words, InWordRange word)
    ⟨fun ⟨sym, start, stop, targetWords⟩ => ⟨sym, start, stop, targetWords⟩,
      fun ⟨sym, start, stop, targetWords⟩ => ⟨sym, start, stop, targetWords⟩⟩

structure Edge.InRange (e : Edge) : Prop where
  features : ∀ entry ∈ e.features.entries, InWordRange entry.1
  targets : ∀ side ∈ e.targets, ∀ symbol ∈ side, symbol.InRange

instance (e : Edge) : Decidable e.InRange :=
  decidable_of_iff ((∀ entry ∈ e.features.entries, InWordRange entry.1) ∧
      ∀ side ∈ e.targets, ∀ symbol ∈ side, symbol.InRange)
    ⟨fun ⟨features, targets⟩ => ⟨features, targets⟩,
      fun ⟨features, targets⟩ => ⟨features, targets⟩⟩

/-- Nodes and edges are few enough for their numbers, and all other numbers are in range. -/
structure Graph.InRange (g : Graph) : Prop where
  words : ∀ word ∈ g.words, InWordRange word
  nodes_size : g.nodes.size ≤ 0x100000000
  edges_size : g.edges.size ≤ 0x100000000
  nodes : ∀ n ∈ g.nodes.toList, n.InRange
  edges : ∀ e ∈ g.edges.toList, e.InRange

theorem Symbol.InRange.toId {s : Symbol} (h : s.InRange) :
    InWordRange s.toId ∧ Symbol.ofId s.toId = s := by
  cases s with
  | word id =>
      have below : id < 0x80000000 := h
      have natural : ¬ ((id : Int) < 0) := by omega
      refine ⟨⟨show (-0x80000000 : Int) ≤ (id : Int) by omega,
        show (id : Int) ≤ 0x7fffffff by omega⟩, ?_⟩
      rw [Symbol.toId, Symbol.ofId, slotOf?, if_neg natural]
      rfl
  | slot index =>
      have below : index < 0x80000000 := h
      have number := slotId_small below
      have negative : (-1 - index : Int) < 0 := by omega
      have back : (-1 - (-1 - index : Int)).toNat = index := by omega
      refine ⟨?_, ?_⟩
      · rw [Symbol.toId, number]
        exact ⟨show (-0x80000000 : Int) ≤ (-1 - index : Int) by omega,
          show (-1 - index : Int) ≤ 0x7fffffff by omega⟩
      · rw [Symbol.toId, number, Symbol.ofId, slotOf?, if_pos negative, back]

/-! ### Parts of a forest -/

theorem reads_wordId {id : WordId} (h : InWordRange id) : Reads readWordId (Json.int id) id :=
  Json.reads_intBetween h.1 h.2 (Int.le_trans (by decide) h.1) (Int.lt_of_le_of_lt h.2 (by decide))

theorem reads_id {id : Nat} (small : id < 0x100000000) : Reads readId (Json.nat id) id :=
  Json.reads_natBelow small (by omega)

theorem reads_position {n : Nat} (small : n < 0x10000000000000000) :
    Reads readPosition (Json.nat n) n :=
  Json.reads_natBelow small small

/-- An array of values each of which is read as something that it stands for. -/
theorem reads_map {α β : Type} {item : Json.Reader β} {write : α → List Char} {f : α → β}
    {as : List α} (each : ∀ a ∈ as, Reads item (write a) (f a)) :
    Reads (Json.list item) (Json.array (as.map write)) (as.map f) :=
  Json.reads_list (List.forall₂_map_left_iff.2 (List.forall₂_map_right_iff.2
    (List.forall₂_same.2 each)))

theorem reads_all {α : Type} {item : Json.Reader α} {write : α → List Char} {as : List α}
    (each : ∀ a ∈ as, Reads item (write a) a) :
    Reads (Json.list item) (Json.array (as.map write)) as := by
  have reads := reads_map (f := id) each
  rwa [List.map_id] at reads

theorem reads_span {s : Span} (start : s.start < 0x10000000000000000)
    (stop : s.stop < 0x10000000000000000) : Reads Span.ofJson s.toJson s :=
  (Json.reads_pair (reads_position start) (reads_position stop)).bind_pure
    fun ends => (⟨ends.1, ends.2⟩ : Span)

theorem reads_frontier (f : Frontier) :
    Reads Frontier.ofJson (Json.string f.name.toList) f := by
  refine Json.reads_oneOf ?_
  cases f <;> rfl

theorem reads_sourceText (text : String) : Reads readText (Json.string text.toList) text := by
  have reads := (Json.reads_text text.toList).bind_pure String.ofList
  rwa [String.ofList_toList] at reads

theorem reads_side {side : List Symbol} (h : ∀ symbol ∈ side, symbol.InRange) :
    Reads (do return (← Json.list readWordId).map Symbol.ofId)
      (Json.array (side.map (Json.int ·.toId))) side := by
  have reads := (reads_map fun symbol listed => reads_wordId (h symbol listed).toId.1).bind_pure
    (List.map Symbol.ofId)
  have same : (side.map Symbol.toId).map Symbol.ofId = side := by
    rw [List.map_map]
    exact (List.map_congr_left fun symbol listed => (h symbol listed).toId.2).trans (List.map_id _)
  rwa [same] at reads

/-! ### Feature vectors -/

namespace Features

/-- The entries of an object as they are read one after another. -/
theorem chain_entries (f : Features) {entries : List (WordId × Float)}
    (names : ∀ entry ∈ entries, InWordRange entry.1)
    (values : ∀ entry ∈ entries, ReadsBack entry.2) :
    Json.Chain (fun f => do
        let name ← Json.intKey (-0x80000000) 0x7fffffff
        Json.colon
        return Features.insert f name (← Json.float))
      (entries.map fun entry => Json.string (Json.int entry.1) ++ ':' :: Json.number entry.2)
      f (entries.foldl (fun f entry => f.insert entry.1 entry.2) f) := by
  induction entries generalizing f with
  | nil => exact .nil f
  | cons entry entries ih =>
      obtain ⟨name_here, names_later⟩ := List.forall_mem_cons.1 names
      obtain ⟨value_here, values_later⟩ := List.forall_mem_cons.1 values
      refine .cons rfl ⟨⟨'"', _, rfl, by decide⟩, fun {size rest} parted short => ?_⟩
        (ih _ names_later values_later)
      rw [List.append_assoc, List.cons_append] at short ⊢
      have name : (Json.intKey (-0x80000000) 0x7fffffff).Runs size _ entry.1 _ :=
        .intKey name_here.1 name_here.2 (Int.le_trans (by decide) name_here.1)
          (Int.lt_of_le_of_lt name_here.2 (by decide)) short
      have value : Json.float.Runs size _ entry.2 rest :=
        (Json.reads_float value_here).runs parted (by
          simp only [List.length_append, List.length_cons] at short ⊢
          omega)
      exact .bind name (.bind .colon (.bind value .pure))

theorem reads (f : Features) (names : ∀ entry ∈ f.entries, InWordRange entry.1)
    (values : ∀ entry ∈ f.entries, ReadsBack entry.2) : Reads Features.ofJson f.toJson f := by
  have all := Json.reads_entries (chain_entries .empty names values)
  rwa [← ofList, ofList_entries] at all

end Features

/-! ### Nodes and edges -/

/-- A natural number is not written as an absent one. -/
theorem head?_nat_ne_n (n : Nat) : (Json.nat n).head? ≠ some 'n' := by
  intro null
  have digit := Json.isDigit_of_mem_nat (List.mem_of_head? null)
  cases digit

theorem reads_number {id : Nat} (small : id < 0x100000000) :
    Reads (Json.nullable readId) (Json.nat id) (some id) := by
  change Reads _ (Json.optional Json.nat (some id)) _
  refine Json.reads_nullable fun _ same => ?_
  cases same
  exact ⟨reads_id small, head?_nat_ne_n id⟩

theorem reads_ids {ids : List Nat} (small : ∀ id ∈ ids, id < 0x100000000) :
    Reads (Json.list readId) (Json.array (ids.map Json.nat)) ids :=
  reads_all fun id member => reads_id (small id member)

theorem reads_words {words : List WordId} (inRange : ∀ word ∈ words, InWordRange word) :
    Reads (Json.list readWordId) (Json.array (words.map Json.int)) words :=
  reads_all fun word member => reads_wordId (inRange word member)

theorem head?_array_ne_n (texts : List (List Char)) : (Json.array texts).head? ≠ some 'n' := by
  intro null
  cases null

theorem Node.reads {n : Node} (inRange : n.InRange) (id : n.id < 0x100000000)
    (edges : ∀ id ∈ n.edges, id < 0x100000000) : Reads NodeRecord.ofJson n.toJson n.record := by
  have targetWords : Reads (Json.nullable (Json.list readWordId))
      (Json.optional (fun words => Json.array (words.map Json.int)) n.targetWords) n.targetWords :=
    Json.reads_nullable fun words given =>
      ⟨reads_words (inRange.targetWords words given), head?_array_ne_n _⟩
  refine Json.reads_record (s := ⟨some (some n.id), some n.sym, some n.span, some n.frontier,
    some n.edges, some n.targetWords⟩) ?_ rfl
  refine .cons (Json.fieldReads (reads_number id) fun o => (⟨o, _, _, _, _, _⟩ : NodeFields)) ?_
  refine .cons (Json.fieldReads (reads_wordId inRange.sym) fun o =>
    (⟨_, o, _, _, _, _⟩ : NodeFields)) ?_
  refine .cons (Json.fieldReads (reads_span inRange.start inRange.stop) fun o =>
    (⟨_, _, o, _, _, _⟩ : NodeFields)) ?_
  refine .cons (Json.fieldReads (reads_frontier n.frontier) fun o =>
    (⟨_, _, _, o, _, _⟩ : NodeFields)) ?_
  refine .cons (Json.fieldReads (reads_ids edges) fun o => (⟨_, _, _, _, o, _⟩ : NodeFields)) ?_
  refine .cons (Json.fieldReads targetWords fun o => (⟨_, _, _, _, _, o⟩ : NodeFields)) ?_
  exact .nil _

def Edge.numbers (e : Edge) : List Float := e.probability :: e.features.entries.map (·.2)

/-- The probabilities and the feature values of a forest. -/
def Graph.numbers (g : Graph) : List Float := g.edges.toList.flatMap Edge.numbers

theorem reads_sides {sides : List (List Symbol)}
    (h : ∀ side ∈ sides, ∀ symbol ∈ side, symbol.InRange) :
    Reads readSides (Json.array (sides.map fun side => Json.array (side.map (Json.int ·.toId))))
      sides :=
  reads_all fun side member => reads_side (h side member)

theorem Edge.reads {e : Edge} (inRange : e.InRange) (id : e.id < 0x100000000)
    (head : e.head < 0x100000000) (tails : ∀ t ∈ e.tails, t < 0x100000000)
    (numbers : ∀ x ∈ e.numbers, ReadsBack x) : Reads EdgeRecord.ofJson e.toJson e.record := by
  obtain ⟨probability, values⟩ := List.forall_mem_cons.1 numbers
  have features := Features.reads e.features inRange.features fun entry member =>
    values entry.2 (List.mem_map_of_mem member)
  have sourceText : Reads (Json.nullable readText)
      (Json.optional (Json.string ·.toList) e.sourceText) e.sourceText :=
    Json.reads_nullable fun text _ => ⟨reads_sourceText text, fun null => by cases null⟩
  refine Json.reads_record (s := ⟨some (some e.id), some e.head, some e.tails,
    some e.probability, some e.features, some e.targets, some e.sourceText⟩) ?_ rfl
  refine .cons (Json.fieldReads (reads_number id) fun o =>
    (⟨o, _, _, _, _, _, _⟩ : EdgeFields)) ?_
  refine .cons (Json.fieldReads (reads_id head) fun o =>
    (⟨_, o, _, _, _, _, _⟩ : EdgeFields)) ?_
  refine .cons (Json.fieldReads (reads_ids tails) fun o =>
    (⟨_, _, o, _, _, _, _⟩ : EdgeFields)) ?_
  refine .cons (Json.fieldReads (Json.reads_float probability) fun o =>
    (⟨_, _, _, o, _, _, _⟩ : EdgeFields)) ?_
  refine .cons (Json.fieldReads features fun o =>
    (⟨_, _, _, _, o, _, _⟩ : EdgeFields)) ?_
  refine .cons (Json.fieldReads (reads_sides inRange.targets) fun o =>
    (⟨_, _, _, _, _, o, _⟩ : EdgeFields)) ?_
  refine .cons (Json.fieldReads sourceText fun o => (⟨_, _, _, _, _, _, o⟩ : EdgeFields)) ?_
  exact .nil _

namespace Graph

/-- The forest as it is written down. -/
def record (g : Graph) : GraphRecord :=
  ⟨g.words, g.nodes.toList.map Node.record, g.edges.toList.map Edge.record⟩

variable {g : Graph}

theorem getElem?_record_nodes (place : NodeId) :
    g.record.nodes[place]? = g.nodes[place]?.map Node.record := by
  rw [record, List.getElem?_map, Array.getElem?_toList]

theorem getElem?_record_edges (place : EdgeId) :
    g.record.edges[place]? = g.edges[place]?.map Edge.record := by
  rw [record, List.getElem?_map, Array.getElem?_toList]

theorem lt_of_record_node {place : NodeId} {n : NodeRecord}
    (found : g.record.nodes[place]? = some n) : place < g.nodes.size := by
  obtain ⟨below, -⟩ := List.getElem?_eq_some_iff.1 found
  simpa [record] using below

theorem lt_of_record_edge {place : EdgeId} {e : EdgeRecord}
    (found : g.record.edges[place]? = some e) : place < g.edges.size := by
  obtain ⟨below, -⟩ := List.getElem?_eq_some_iff.1 found
  simpa [record] using below

/-- A sound forest has its nodes and edges at the places of their numbers already. -/
theorem placed_record (sound : g.record.Sound) : g.record.placed = g := by
  have nodes : (g.record.nodes.toArray.mapIdx fun place n => n.numbered place) = g.nodes := by
    refine Array.ext_getElem? fun place => ?_
    rw [Array.getElem?_mapIdx, List.getElem?_toArray, getElem?_record_nodes]
    cases here : g.nodes[place]? with
    | none => rfl
    | some n =>
        have id := sound.node_id ((getElem?_record_nodes place).trans (congrArg _ here))
        cases n
        cases id
        rfl
  have edges : (g.record.edges.toArray.mapIdx fun place e => e.numbered place) = g.edges := by
    refine Array.ext_getElem? fun place => ?_
    rw [Array.getElem?_mapIdx, List.getElem?_toArray, getElem?_record_edges]
    cases here : g.edges[place]? with
    | none => rfl
    | some e =>
        have id := sound.edge_id ((getElem?_record_edges place).trans (congrArg _ here))
        cases e
        cases id
        rfl
  rw [GraphRecord.placed, nodes, edges]
  rfl

/-- Nodes and edges have numbers below those of their kind. -/
theorem node_lt (sound : g.record.Sound) {n : Node} (member : n ∈ g.nodes.toList) :
    n.id < g.nodes.size ∧ ∀ id ∈ n.edges, id < g.edges.size := by
  obtain ⟨place, here⟩ := List.mem_iff_getElem?.1 member
  rw [Array.getElem?_toList] at here
  have recorded := (getElem?_record_nodes place).trans (congrArg _ here)
  have number : n.id = place := Option.some.inj (sound.node_id recorded)
  refine ⟨number ▸ (Array.getElem?_eq_some_iff.1 here).1, fun id listed => ?_⟩
  obtain ⟨e, found, -⟩ := sound.node_edges recorded id listed
  exact lt_of_record_edge found

theorem edge_lt (sound : g.record.Sound) {e : Edge} (member : e ∈ g.edges.toList) :
    e.id < g.edges.size ∧ e.head < g.nodes.size ∧ ∀ t ∈ e.tails, t < g.nodes.size := by
  obtain ⟨place, here⟩ := List.mem_iff_getElem?.1 member
  rw [Array.getElem?_toList] at here
  have recorded := (getElem?_record_edges place).trans (congrArg _ here)
  have number : e.id = place := Option.some.inj (sound.edge_id recorded)
  obtain ⟨head, found, -⟩ := sound.edge_head recorded
  refine ⟨number ▸ (Array.getElem?_eq_some_iff.1 here).1, lt_of_record_node found,
    fun t joined => ?_⟩
  simpa [record] using sound.edge_tails recorded t joined

theorem reads (sound : g.record.Sound) (inRange : g.InRange)
    (numbers : ∀ x ∈ g.numbers, ReadsBack x) : Reads GraphRecord.ofJson g.toJson g.record := by
  have nodes : Reads (Json.list NodeRecord.ofJson) (Json.array (g.nodes.toList.map Node.toJson))
      (g.nodes.toList.map Node.record) := by
    refine reads_map fun n member => ?_
    obtain ⟨number, listed⟩ := node_lt sound member
    exact Node.reads (inRange.nodes n member) (Nat.lt_of_lt_of_le number inRange.nodes_size)
      fun id edge => Nat.lt_of_lt_of_le (listed id edge) inRange.edges_size
  have edges : Reads (Json.list EdgeRecord.ofJson) (Json.array (g.edges.toList.map Edge.toJson))
      (g.edges.toList.map Edge.record) := by
    refine reads_map fun e member => ?_
    obtain ⟨number, head, tails⟩ := edge_lt sound member
    exact Edge.reads (inRange.edges e member) (Nat.lt_of_lt_of_le number inRange.edges_size)
      (Nat.lt_of_lt_of_le head inRange.nodes_size)
      (fun t tail => Nat.lt_of_lt_of_le (tails t tail) inRange.nodes_size)
      fun x ofEdge => numbers x (List.mem_flatMap.2 ⟨e, member, ofEdge⟩)
  refine Json.reads_record (s := ⟨some g.words, some _, some _⟩) ?_ rfl
  refine .cons (Json.fieldReads (reads_words inRange.words) fun o =>
    (⟨o, _, _⟩ : GraphFields)) ?_
  refine .cons (Json.fieldReads nodes fun o => (⟨_, o, _⟩ : GraphFields)) ?_
  refine .cons (Json.fieldReads edges fun o => (⟨_, _, o⟩ : GraphFields)) ?_
  exact .nil _

/-- A sound forest is read back if its numbers are. -/
theorem ofJson_of_sound (sound : g.record.Sound) (inRange : g.InRange)
    (numbers : ∀ x ∈ g.numbers, ReadsBack x) : Graph.ofJson g.toJson = .ok g := by
  rw [Graph.ofJson, (reads sound inRange numbers).parse]
  exact GraphRecord.toGraph_eq_ok_iff.2 ⟨sound, (placed_record sound).symm⟩

/-- A forest that the checks accept, with finite numbers and all others in range, is read back from
its text as it is. -/
theorem ofJson_toJson (valid : g.record.toGraph.isOk = true) (inRange : g.InRange)
    (finite : ∀ x ∈ g.numbers, x.isFinite = true)
    (readsBack : ∀ x ∈ g.numbers, x.isFinite = true → ReadsBack x) :
    Graph.ofJson g.toJson = .ok g := by
  cases checked : g.record.toGraph with
  | error e =>
      rw [checked] at valid
      cases valid
  | ok g' =>
      exact ofJson_of_sound (GraphRecord.toGraph_eq_ok_iff.1 checked).1 inRange
        fun x member => readsBack x member (finite x member)

/-- Two nodes and an edge with features, target sides and a source text with a quote, a control
and characters beyond all codes of one byte. -/
def glossed : Graph where
  words := [4, -1]
  nodes := #[⟨0, 4, ⟨0, 1⟩, .yes, [], some [7, -2]⟩, ⟨1, 0, ⟨0, 1⟩, .unset, [0], none⟩]
  edges := #[⟨0, 1, [0], 0.5, ⟨[(-3, -0.25), (5, 1.5)], by simp⟩,
    [[.word 4, .slot 0], []], some "\"\t\\é𝄞\u0001"⟩]

theorem ofJson_toJson_glossed : Graph.ofJson glossed.toJson = .ok glossed :=
  ofJson_toJson (by decide +kernel)
    ⟨by decide, by decide, by decide, by decide +kernel, by decide +kernel⟩
    (by decide +kernel) (by decide +kernel)

end Graph

end PackedForest
