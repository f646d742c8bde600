import PackedForest.Parser.Settings
import PackedForest.Proofs.Parser.Filling
import PackedForest.Proofs.Rule.Use
import PackedForest.Proofs.Trie.Freezing

/-!
# Parsers and the tables they were loaded from

A parser holds tries, but it is meant to stand for the rule tables that these were made of.
`Parser.LoadedFrom` ties the two together. It holds of a new parser, and adding a grammar or
changing a setting keeps it, with the tables changed alike.

For such a parser the walks over a span find, table by table and rule by rule, exactly the uses
over all cuts of the span (`Parser.LoadedFrom.found_perm`).
-/

namespace PackedForest

/-- The rules of a table, and the settings of its grammar. -/
structure RuleTable where
  rules : List Rule
  spanLimit : Nat
  keepSourceText : Bool

namespace RuleTable

def grammar (t : RuleTable) : Grammar :=
  { Grammar.ofRules t.rules with
    spanLimit := t.spanLimit
    keepSourceText := t.keepSourceText }

/-- The rules are those that some text holds. -/
def IsRead (t : RuleTable) : Prop :=
  ∃ factors lines v v', (readTable factors lines).run.run v = (.ok t.rules, v')

/-- A grammar that is read is made of the rules that were read. -/
theorem readGrammar_returns (factors : Nat) (lines : List (Option (List Char))) :
    Interning.Returns (readGrammar factors lines) fun g => ∃ rules,
      (∃ v v', (readTable factors lines).run.run v = (.ok rules, v')) ∧ g = .ofRules rules := by
  refine .bind (P := fun rules => ∃ v v', (readTable factors lines).run.run v = (.ok rules, v'))
    ?_ ?_
  · exact fun v _ v' table => ⟨v, v', table⟩
  · exact fun rules table => .pure ⟨rules, table, rfl⟩

theorem IsRead.rules_isRead {t : RuleTable} (h : t.IsRead) : ∀ r ∈ t.rules, r.IsRead := by
  obtain ⟨factors, lines, v, v', read⟩ := h
  exact readTable_isRead factors lines v _ v' read

theorem IsRead.wellFormed {t : RuleTable} (h : t.IsRead) {r : Rule} (member : r ∈ t.rules) :
    r.WellFormed :=
  (h.rules_isRead r member).wellFormed

/-- The uses of all rules that are not unary, over all cuts of a span within the limit. -/
def applications (t : RuleTable) (sentence : List WordId) (chart : Chart) (span : Span) :
    List Application :=
  if span.stop - span.start ≤ t.spanLimit then
    (t.rules.filter (!·.isUnary)).flatMap fun r =>
      (r.uses sentence chart span).map (⟨r, ·, t.keepSourceText⟩)
  else []

/-- The walk through the trie of a table finds what walks along the paths of its rules find. -/
theorem walk_perm (t : RuleTable) (chart : Chart) (start : Nat) (words : List WordId) :
    ((t.grammar.matching chart start words).map
        fun m => (⟨m.rule, m.tails, t.keepSourceText⟩ : Application)).Perm
      (if words.length ≤ t.spanLimit then (t.rules.filter (!·.isUnary)).flatMap fun r =>
        (fillings chart start start words r.path).map (⟨r, ·, t.keepSourceText⟩)
      else []) := by
  obtain ⟨distinct, listing⟩ := Grammar.trie_ofRules t.rules
  rw [Grammar.matching]
  change (List.map _ (if words.length ≤ t.spanLimit then
    Match.through chart start (Grammar.ofRules t.rules).trie _ _ else [])).Perm _
  split
  · have walked := (Match.through_perm distinct).trans
      (listing.flatMap_right (Match.spelling chart start start words))
    refine (walked.map _).trans (.of_eq ?_)
    rw [List.flatMap_map, List.map_flatMap]
    refine List.flatMap_congr fun r _ => ?_
    rw [Match.spelling, List.map_map]
    rfl
  · rfl

theorem IsRead.matching_perm {t : RuleTable} (h : t.IsRead) {sentence : List WordId}
    {span : Span} (known : span ∈ Span.upTo sentence.length) (chart : Chart) :
    ((t.grammar.matching chart span.start
        ((sentence.drop span.start).take (span.stop - span.start))).map
          fun m => (⟨m.rule, m.tails, t.keepSourceText⟩ : Application)).Perm
      (t.applications sentence chart span) := by
  obtain ⟨nonempty, bound⟩ := Span.mem_upTo.1 known
  refine (t.walk_perm chart span.start _).trans (.of_eq ?_)
  rw [length_words known, applications]
  refine if_congr Iff.rfl (List.flatMap_congr fun r member => ?_) rfl
  obtain ⟨stored, several⟩ := List.mem_filter.1 member
  rw [(h.wellFormed stored).fillings_path (by simpa using several) nonempty bound]

end RuleTable

namespace Parser

/-- The grammars of the parser were made of these tables. -/
structure LoadedFrom (p : Parser) (tables : List RuleTable) : Prop where
  grammars : p.grammars = tables.map RuleTable.grammar
  read : ∀ t ∈ tables, t.IsRead

/-- The uses of the rules of all tables over a span. -/
def ruleApplications (tables : List RuleTable) (sentence : List WordId) (chart : Chart)
    (span : Span) : List Application :=
  tables.flatMap fun t => t.applications sentence chart span

/-- The word of a span passed through, if it is a single one that no table has a use for. -/
def unknownApplications (p : Parser) (tables : List RuleTable) (sentence : List WordId)
    (chart : Chart) (span : Span) : List Application :=
  if span.stop = span.start + 1 ∧ ruleApplications tables sentence chart span = [] ∧
      p.deleteUnknown = false then
    sentence[span.start]?.toList.map fun word => ⟨p.unknownRule word, [], p.keepSourceText⟩
  else []

namespace LoadedFrom

variable {p : Parser} {tables : List RuleTable}

theorem matching_perm (h : p.LoadedFrom tables) {sentence : List WordId} {span : Span}
    (known : span ∈ Span.upTo sentence.length) (chart : Chart) :
    (p.matching chart span.start
        ((sentence.drop span.start).take (span.stop - span.start))).Perm
      (ruleApplications tables sentence chart span) := by
  rw [Parser.matching, h.grammars, List.flatMap_map]
  exact List.Perm.flatMap_left _ fun t member => (h.read t member).matching_perm known chart

/-- What the walks find over a span: all uses of rules, or else the word itself. -/
theorem found_perm (h : p.LoadedFrom tables) {sentence : List WordId} {span : Span}
    (known : span ∈ Span.upTo sentence.length) (chart : Chart) :
    (p.found sentence chart span).Perm (ruleApplications tables sentence chart span ++
      p.unknownApplications tables sentence chart span) := by
  have walked := h.matching_perm known chart
  obtain ⟨nonempty, bound⟩ := Span.mem_upTo.1 known
  have inside := Nat.lt_of_lt_of_le nonempty bound
  have words := Rule.words_cons nonempty inside
  unfold found applications
  split
  · next word none_found single =>
      rw [none_found] at walked
      have none_left := congrArg List.length single
      simp only [List.length_take, List.length_drop, List.length_singleton] at none_left
      have wide : span.stop = span.start + 1 := by omega
      rw [single] at words
      obtain ⟨rfl, -⟩ := List.cons.inj words
      simp only [unknownApplications, ← walked.nil_eq, wide, true_and, List.nil_append,
        List.getElem?_eq_getElem inside]
      cases p.deleteUnknown <;> simp
  · next other =>
      have passed : p.unknownApplications tables sentence chart span = [] := by
        rw [unknownApplications, if_neg]
        rintro ⟨wide, none_found, -⟩
        rw [none_found] at walked
        have none_left : span.stop - (span.start + 1) = 0 := by omega
        rw [none_left, List.take_zero] at words
        exact other _ walked.eq_nil words
      rw [passed, List.append_nil]
      exact walked

theorem new (v : Vocabulary) : (Parser.new.run v).1.LoadedFrom [] where
  grammars := rfl
  read := by simp

/-- A grammar that is read is that of a table that is read. -/
theorem addGrammar (h : p.LoadedFrom tables) {factors : Nat} {lines : List (Option (List Char))}
    {g : Grammar} {v v' : Vocabulary}
    (read : (readGrammar factors lines).run.run v = (.ok g, v')) :
    ∃ t, (p.addGrammar g).LoadedFrom (tables ++ [t]) := by
  obtain ⟨rules, ⟨u, u', table⟩, rfl⟩ := RuleTable.readGrammar_returns factors lines v g v' read
  refine ⟨⟨rules, defaultSpanLimit, p.keepSourceText⟩, ?_, ?_⟩
  · rw [Parser.addGrammar, List.map_append, ← h.grammars]
    cases keep : p.keepSourceText <;> rfl
  · intro t member
    rcases List.mem_append.1 member with old | new
    · exact h.read t old
    · rw [List.mem_singleton.1 new]
      exact ⟨factors, lines, u, u', table⟩

theorem setKeepSourceText (h : p.LoadedFrom tables) (keep : Bool) :
    (p.setKeepSourceText keep).LoadedFrom
      (tables.map fun t => { t with keepSourceText := keep }) where
  grammars := by
    simp only [Parser.setKeepSourceText, h.grammars, List.map_map]
    rfl
  read t member := by
    obtain ⟨t, old, rfl⟩ := List.mem_map.1 member
    exact h.read t old

theorem setSpanLimits (h : p.LoadedFrom tables) {limits : List Nat} {p' : Parser}
    (accepted : p.setSpanLimits limits = .ok p') :
    p'.LoadedFrom (tables.zipWith (fun t limit => { t with spanLimit := limit }) limits) := by
  unfold Parser.setSpanLimits at accepted
  split at accepted
  · cases accepted
    refine ⟨?_, fun t member => ?_⟩
    · simp only [h.grammars, List.zipWith_map_left, List.map_zipWith]
      rfl
    · rw [← List.map_uncurry_zip_eq_zipWith] at member
      obtain ⟨⟨t, limit⟩, pair, rfl⟩ := List.mem_map.1 member
      exact h.read t (List.of_mem_zip pair).1
  · cases accepted

end LoadedFrom

end Parser

section Nouns

/-- A small table: a noun, twice, a pair of nouns that change places, and a unary rule back. -/
def nounLines : List (Option (List Char)) :=
  ["a @ N ||| b |||", "a @ N ||| b |||", "x1:N x2:N @ S ||| x2:N x1:N |||",
    "x1:S @ N ||| x1:S |||"].map fun line => some line.toList

def nounRules : List Rule :=
  match ((readTable 1 nounLines).run.run .empty).1 with
  | .ok rules => rules
  | .error _ => []

def nounTable : RuleTable := ⟨nounRules, defaultSpanLimit, false⟩

theorem nounTable_read : (readTable 1 nounLines).run.run .empty =
    (.ok nounTable.rules, ((readTable 1 nounLines).run.run .empty).2) := by
  have sources : nounRules.map (·.source) =
      [[.word 1], [.word 1], [.slot 0, .slot 1], [.slot 0]] := by decide +kernel
  rw [nounTable]
  unfold nounRules at sources ⊢
  cases returned : ((readTable 1 nounLines).run.run .empty).1 with
  | ok rules => exact Prod.ext returned rfl
  | error e =>
      rw [returned] at sources
      cases sources

theorem nounTable_isRead : nounTable.IsRead := ⟨1, nounLines, .empty, _, nounTable_read⟩

/-- A parser of the table, for pairs as whole sentences. -/
def nounParser : Parser where
  grammars := [nounTable.grammar]
  factors := 1
  rootLabel := 3
  unknownLabel := 4
  deleteUnknown := false
  keepSourceText := false

theorem nounParser_loadedFrom : nounParser.LoadedFrom [nounTable] where
  grammars := rfl
  read _ member := List.mem_singleton.1 member ▸ nounTable_isRead

end Nouns

end PackedForest
