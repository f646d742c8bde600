import PackedForest.Proofs.Graph.Agreement
import PackedForest.Proofs.Parser.Contents
import PackedForest.Proofs.Parser.Numbering

/-!
# Which forests survive being written and read

The nodes and edges of a forest always fit together, its probabilities are probabilities, and in a
vocabulary of the usual size its numbers are in the ranges of the format. What may be out of order
are the values of features, for which a rule table may give infinities and no numbers. They are
written as `null` and refused when they are read, and they agree with nothing. So a forest survives
if and only if the feature values of its edges are finite (`Parser.LoadedIn.survives_iff`).
-/

namespace PackedForest

open Json (ReadsBack)
open Vocabulary

/-- The record of a graph whose stores agree passes all checks if probabilities are
probabilities. -/
theorem Graph.Indexed.record_sound {g : Graph} (h : g.Indexed)
    (probabilities : ∀ e ∈ g.edges.toList, isProbability e.probability = true) :
    g.record.Sound := by
  have node : ∀ {place : NodeId} {n : NodeRecord}, g.record.nodes[place]? = some n →
      ∃ m, g.nodes[place]? = some m ∧ m.record = n := fun here =>
    Option.map_eq_some_iff.1 ((getElem?_record_nodes _).symm.trans here)
  have edge : ∀ {place : EdgeId} {e : EdgeRecord}, g.record.edges[place]? = some e →
      ∃ f, g.edges[place]? = some f ∧ f.record = e := fun here =>
    Option.map_eq_some_iff.1 ((getElem?_record_edges _).symm.trans here)
  constructor
  case node_id =>
    intro place n recorded
    obtain ⟨m, here, rfl⟩ := node recorded
    exact congrArg some (h.node_id here)
  case node_edges =>
    intro place n recorded id listed
    obtain ⟨m, here, rfl⟩ := node recorded
    obtain ⟨f, stored, head⟩ := h.edge_of_listed here listed
    exact ⟨f.record, (getElem?_record_edges id).trans (congrArg _ stored), head⟩
  case edge_id =>
    intro place e recorded
    obtain ⟨f, here, rfl⟩ := edge recorded
    exact congrArg some (h.edge_id here)
  case edge_head =>
    intro place e recorded
    obtain ⟨f, here, rfl⟩ := edge recorded
    have head := Array.getElem?_eq_getElem (h.head_lt here)
    refine ⟨_, (getElem?_record_nodes f.head).trans (congrArg _ head), ?_⟩
    change place ∈ Node.edges _
    rw [h.node_edges head]
    refine List.mem_filter.2 ⟨List.mem_range.2 (Array.getElem?_eq_some_iff.1 here).1, ?_⟩
    rw [here]
    exact decide_eq_true rfl
  case edge_tails =>
    intro place e recorded t tail
    obtain ⟨f, here, rfl⟩ := edge recorded
    simpa [record] using h.tail_lt here t tail
  case edge_probability =>
    intro place e recorded
    obtain ⟨f, here, rfl⟩ := edge recorded
    exact probabilities f (Array.mem_toList_iff.2 (Array.mem_of_getElem? here))

theorem Vocabulary.Names.inWordRange {v : Vocabulary} (small : v.size ≤ 0x80000000) {id : WordId}
    (named : v.Names id) : InWordRange id := by
  obtain ⟨s, named⟩ := named
  obtain ⟨i, rfl, here⟩ := symbol_eq_ok_iff.1 named
  have inside : i < v.size := (Array.getElem?_eq_some_iff.1 here).1
  exact ⟨show (-0x80000000 : Int) ≤ (i : Int) by omega, show (i : Int) ≤ 0x7fffffff by omega⟩

theorem Symbol.inRange_ofId {id : WordId} (h : InWordRange id) : (Symbol.ofId id).InRange := by
  have least : (-0x80000000 : Int) ≤ (id : Int) := h.1
  have most : (id : Int) ≤ 0x7fffffff := h.2
  unfold Symbol.ofId slotOf?
  by_cases negative : (id : Int) < 0
  · rw [if_pos negative]
    change (-1 - (id : Int)).toNat < 0x80000000
    omega
  · rw [if_neg negative]
    exact (Int.toNat_lt (Int.not_lt.1 negative)).2 (Int.lt_of_le_of_lt most (by decide))

namespace Parser.LoadedIn

section

variable {p : Parser} {tables : List RuleTable} {v : Vocabulary} {sentence : List WordId}
  (h : p.LoadedIn tables v) (small : v.size ≤ 0x80000000)

include h small

/-- The features and target sides of a rule that is applied are in range. -/
theorem supplied_inRange (known : ∀ id ∈ sentence, InWordRange id) {r : Rule}
    (supplied : p.Supplies tables sentence r) (few : r.slots.length ≤ 0x80000000) :
    (∀ entry ∈ r.features.entries, InWordRange entry.1) ∧
      ∀ side ∈ r.targets, ∀ symbol ∈ side, symbol.InRange := by
  cases supplied with
  | @table t _ listed stored =>
      have named := (h.read t listed).named stored
      have below := ((h.read t listed).isRead.rules_isRead r stored).targets
      refine ⟨fun entry member => (named.features entry member).inWordRange small, ?_⟩
      intro side target symbol member
      cases symbol with
      | word id =>
          exact Int.ofNat_lt.1 (Int.lt_of_le_of_lt
            ((named.targets side target _ member).inWordRange small).2 (by decide))
      | slot index => exact Nat.lt_of_lt_of_le (below side target index member) few
  | @unknown word listed =>
      refine ⟨by simp [unknownRule, Rule.passThrough, Features.empty], ?_⟩
      intro side target symbol member
      rw [List.eq_of_mem_replicate target, List.mem_singleton] at member
      exact member ▸ Symbol.inRange_ofId (known word listed)

/-- The numbers of a forest are in range. -/
theorem inRange (unknown : InWordRange p.unknownLabel) (known : ∀ id ∈ sentence, InWordRange id)
    (short : sentence.length ≤ 0x80000000)
    (nodes : (p.parse sentence).graph.nodes.size ≤ 0x100000000)
    (edges : (p.parse sentence).graph.edges.size ≤ 0x100000000) :
    (p.parse sentence).graph.InRange := by
  obtain ⟨fills, filled⟩ := p.parse_filled sentence
  refine ⟨filled.words.symm ▸ known, nodes, edges, fun n member => ?_, fun e member => ?_⟩
  · have bare := p.targetWords_eq_none sentence n member
    obtain ⟨id, here⟩ := List.mem_iff_getElem?.1 member
    rw [Array.getElem?_toList] at here
    obtain ⟨labels, found, sym⟩ := filled.wellFormed.exists_key here
    have present : ((p.parse sentence).chart.find? n.span labels).isSome := by rw [found]; rfl
    have derived := h.loadedFrom.derives_of_isSome present
    obtain ⟨nonempty, inside⟩ := Span.mem_upTo.1 (filled.span_of_found present)
    have source : InWordRange labels.source :=
      h.of_derives (fun _ named => named.inWordRange small) (fun _ => unknown) derived
    refine ⟨sym ▸ source, by omega, by omega, ?_⟩
    rw [bare]
    exact fun words unset => by cases unset
  · obtain ⟨a, complete, edge⟩ := h.loadedFrom.edge_complete member
    have features : e.features = a.rule.features := congrArg EdgeRecord.features edge
    have targets : e.targets = a.rule.targets := congrArg EdgeRecord.targets edge
    obtain ⟨names, symbols⟩ :=
      h.supplied_inRange small known complete.rule (complete.few.trans short)
    exact ⟨features ▸ names, targets ▸ symbols⟩

/-- A forest is read back, as one that it agrees with, if and only if the feature values of its
edges are finite. -/
theorem survives_iff (unknown : InWordRange p.unknownLabel)
    (known : ∀ id ∈ sentence, InWordRange id) (short : sentence.length ≤ 0x80000000)
    (nodes : (p.parse sentence).graph.nodes.size ≤ 0x100000000)
    (edges : (p.parse sentence).graph.edges.size ≤ 0x100000000)
    (exponential : ∀ t ∈ tables, ∀ r ∈ t.rules,
      r.features.total < 0.0 → isProbability r.features.total.exp = true)
    (readsBack : ∀ x ∈ (p.parse sentence).graph.numbers, x.isFinite = true → ReadsBack x) :
    (∃ g, Graph.ofJson (p.parse sentence).graph.toJson = .ok g ∧
      (p.parse sentence).graph.agrees g = true) ↔
    ∀ e ∈ (p.parse sentence).graph.edges.toList, ∀ entry ∈ e.features.entries,
      entry.2.isFinite = true := by
  refine ⟨fun ⟨g, _, agree⟩ => Graph.isFinite_of_agrees agree, fun values => ?_⟩
  obtain ⟨fills, filled⟩ := p.parse_filled sentence
  have probabilities : ∀ e ∈ (p.parse sentence).graph.edges.toList,
      isProbability e.probability = true :=
    fun e stored => h.loadedFrom.isProbability_of_edge exponential stored
  have finite : ∀ x ∈ (p.parse sentence).graph.numbers, x.isFinite = true := by
    intro x member
    obtain ⟨e, stored, ofEdge⟩ := List.mem_flatMap.1 member
    rcases List.mem_cons.1 ofEdge with rfl | value
    · exact isFinite_of_isProbability (probabilities e stored)
    · obtain ⟨entry, listed, rfl⟩ := List.mem_map.1 value
      exact values e stored entry listed
  have sound := filled.wellFormed.indexed.record_sound probabilities
  have inRange := h.inRange small unknown known short nodes edges
  exact ⟨_, Graph.ofJson_of_sound sound inRange
    fun x member => readsBack x member (finite x member), Graph.agrees_self finite⟩

end

/-- A table of one rule with a feature of the given value. -/
def ratedLines (value : String) : List (Option (List Char)) :=
  [some s!"a ||| a ||| p={value}".toList]

def ratedRules (value : String) : List Rule :=
  match ((readTable 1 (ratedLines value)).run.run .empty).1 with
  | .ok rules => rules
  | .error _ => []

def ratedTable (value : String) : RuleTable := ⟨ratedRules value, defaultSpanLimit, false⟩

def ratedVocabulary (value : String) : Vocabulary :=
  ((readTable 1 (ratedLines value)).run.run .empty).2

def ratedParser (value : String) : Parser where
  grammars := [(ratedTable value).grammar]
  factors := 1
  rootLabel := 0
  unknownLabel := 0
  deleteUnknown := false
  keepSourceText := false

theorem ratedParser_loadedIn {value : String} (accepted : ratedRules value ≠ []) :
    (ratedParser value).LoadedIn [ratedTable value] (ratedVocabulary value) where
  grammars := rfl
  read t listed := by
    obtain rfl := List.mem_singleton.1 listed
    refine ⟨1, ratedLines value, .empty, _, Prod.ext ?_ rfl, .refl _⟩
    rw [ratedTable]
    unfold ratedRules at accepted ⊢
    cases returned : ((readTable 1 (ratedLines value)).run.run .empty).1 with
    | ok rules => rfl
    | error e =>
        rw [returned] at accepted
        exact absurd rfl accepted

/-- A forest with a finite feature value is read back. -/
theorem survives_iff_half : ∃ g, Graph.ofJson ((ratedParser "0.5").parse [1]).graph.toJson = .ok g ∧
    ((ratedParser "0.5").parse [1]).graph.agrees g = true := by
  have loaded : (ratedParser "0.5").LoadedIn [ratedTable "0.5"] (ratedVocabulary "0.5") :=
    ratedParser_loadedIn (by decide +kernel)
  refine (survives_iff loaded (by decide +kernel) (by decide) (by decide) (by decide)
    (by decide +kernel) (by decide +kernel) ?_ (by decide +kernel)).2 (by decide +kernel)
  intro t listed
  obtain rfl := List.mem_singleton.1 listed
  decide +kernel

/-- One with an infinite value is refused, though the table was accepted. -/
theorem infinite_refused :
    (ratedParser "inf").LoadedIn [ratedTable "inf"] (ratedVocabulary "inf") ∧
      (ratedVocabulary "inf").Names (ratedParser "inf").unknownLabel ∧
      (∀ id ∈ [1], (ratedVocabulary "inf").Names id) ∧
      (Graph.ofJson ((ratedParser "inf").parse [1]).graph.toJson).isOk = false := by
  refine ⟨ratedParser_loadedIn (by decide +kernel),
    ⟨"X", symbol_eq_ok_iff.2 ⟨0, rfl, by decide +kernel⟩⟩, fun id word => ?_, by decide +kernel⟩
  obtain rfl := List.mem_singleton.1 word
  exact ⟨"a", symbol_eq_ok_iff.2 ⟨1, rfl, by decide +kernel⟩⟩

end Parser.LoadedIn

end PackedForest
