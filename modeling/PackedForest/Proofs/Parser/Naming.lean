import PackedForest.Proofs.Parser.Recognition
import PackedForest.Proofs.Rule.Naming
import PackedForest.Proofs.Related

/-!
# Parsers and their vocabularies

The numbers in a parser mean something in the vocabulary that its tables were read into, and in
every vocabulary that extends it. `Parser.LoadedIn` ties a parser to tables and to a vocabulary. It
holds of every parser that is loaded from files (`Parser.ofFiles_loadedIn`), and it still holds
after the words of a sentence were numbered.

The label for unknown words is a setting, and any number will do as a setting. Whether the
vocabulary names it is a condition of its own, `Parser.UnknownNamed`. A parser that is loaded from
files meets it until another label is set.
-/

namespace PackedForest

open Interning (Leaves)
open Vocabulary

/-- The rules of the table are those of some text, and their strings were numbered in `v`. -/
def RuleTable.IsReadInto (t : RuleTable) (v : Vocabulary) : Prop :=
  ∃ factors lines u u', (readTable factors lines).run.run u = (.ok t.rules, u') ∧ v.Extends u'

namespace RuleTable.IsReadInto

variable {t : RuleTable} {v v' : Vocabulary}

theorem isRead (h : t.IsReadInto v) : t.IsRead := by
  obtain ⟨factors, lines, u, u', read, -⟩ := h
  exact ⟨factors, lines, u, u', read⟩

theorem mono (h : t.IsReadInto v) (more : v'.Extends v) : t.IsReadInto v' := by
  obtain ⟨factors, lines, u, u', read, later⟩ := h
  exact ⟨factors, lines, u, u', read, more.trans later⟩

theorem named (h : t.IsReadInto v) {r : Rule} (stored : r ∈ t.rules) : r.Named v := by
  obtain ⟨factors, lines, u, u', read, later⟩ := h
  have leaves := (readTable_named factors lines u).returns (a := t.rules) (by rw [read])
  rw [read] at leaves
  exact (leaves r stored).mono later

end RuleTable.IsReadInto

namespace Parser

/-- The grammars of the parser were made of tables that were read into the vocabulary. -/
structure LoadedIn (p : Parser) (tables : List RuleTable) (v : Vocabulary) : Prop where
  grammars : p.grammars = tables.map RuleTable.grammar
  read : ∀ t ∈ tables, t.IsReadInto v

/-- The vocabulary names the label for unknown words, if such words are kept. -/
def UnknownNamed (p : Parser) (v : Vocabulary) : Prop :=
  p.deleteUnknown = false → v.Names p.unknownLabel

theorem UnknownNamed.mono {p : Parser} {v v' : Vocabulary} (h : p.UnknownNamed v)
    (more : v'.Extends v) : p.UnknownNamed v' := fun keeps => more.names (h keeps)

namespace LoadedIn

variable {p : Parser} {tables : List RuleTable} {v v' : Vocabulary} {sentence : List WordId}

theorem loadedFrom (h : p.LoadedIn tables v) : p.LoadedFrom tables where
  grammars := h.grammars
  read t listed := (h.read t listed).isRead

theorem mono (h : p.LoadedIn tables v) (more : v'.Extends v) : p.LoadedIn tables v' where
  grammars := h.grammars
  read t listed := (h.read t listed).mono more

/-- What holds of every number that is named, and of the label for unknown words if these are kept,
holds of every source label that is derived. -/
theorem of_derives (h : p.LoadedIn tables v) {P : WordId → Prop} (named : ∀ id, v.Names id → P id)
    (unknown : p.deleteUnknown = false → P p.unknownLabel) {span : Span} {labels : Labels}
    (derived : p.Derives tables sentence span labels) : P labels.source := by
  cases derived with
  | rule table stored =>
      exact named _ (((h.read _ table).named stored).head _ List.mem_cons_self)
  | unary table stored =>
      exact named _ (((h.read _ table).named stored).head _ List.mem_cons_self)
  | unknown _ keeps => exact unknown keeps

theorem named_of_derives (h : p.LoadedIn tables v) (unknown : p.UnknownNamed v) {span : Span}
    {labels : Labels} (derived : p.Derives tables sentence span labels) :
    v.Names labels.source :=
  h.of_derives (fun _ named => named) unknown derived

/-- Numbering a sentence keeps the parser loaded, and names the words. -/
theorem internWords (h : p.LoadedIn tables v) (text : String) :
    p.LoadedIn tables ((PackedForest.internWords text).run v).2 ∧
      ∀ id ∈ ((PackedForest.internWords text).run v).1,
        ((PackedForest.internWords text).run v).2.Names id := by
  obtain ⟨more, named⟩ := internWords_spec text v
  refine ⟨h.mono more, fun id listed => ?_⟩
  obtain ⟨word, -, symbol_eq⟩ := exists_of_forall₂_left (mapM_eq_ok_iff.1 named) listed
  exact ⟨word, symbol_eq⟩

theorem addGrammar (h : p.LoadedIn tables v) {t : RuleTable} (read : t.IsReadInto v) :
    (p.addGrammar (.ofRules t.rules)).LoadedIn
      (tables ++ [⟨t.rules, defaultSpanLimit, p.keepSourceText⟩]) v where
  grammars := by
    rw [Parser.addGrammar, List.map_append, ← h.grammars]
    cases keep : p.keepSourceText <;> rfl
  read t listed := by
    rcases List.mem_append.1 listed with old | new
    · exact h.read t old
    · exact List.mem_singleton.1 new ▸ read

theorem setKeepSourceText (h : p.LoadedIn tables v) (keep : Bool) :
    (p.setKeepSourceText keep).LoadedIn
      (tables.map fun t => { t with keepSourceText := keep }) v where
  grammars := (h.loadedFrom.setKeepSourceText keep).grammars
  read t listed := by
    obtain ⟨t, old, rfl⟩ := List.mem_map.1 listed
    exact h.read t old

theorem setSpanLimits (h : p.LoadedIn tables v) {limits : List Nat} {p' : Parser}
    (accepted : p.setSpanLimits limits = .ok p') :
    p'.LoadedIn (tables.zipWith (fun t limit => { t with spanLimit := limit }) limits) v where
  grammars := (h.loadedFrom.setSpanLimits accepted).grammars
  read t listed := by
    rw [← List.map_uncurry_zip_eq_zipWith] at listed
    obtain ⟨⟨t, limit⟩, pair, rfl⟩ := List.mem_map.1 listed
    exact h.read t (List.of_mem_zip pair).1

end LoadedIn

theorem readGrammar_leaves (factors : Nat) (lines : List (Option (List Char))) (v : Vocabulary) :
    Leaves v (readGrammar factors lines) fun v' g =>
      ∃ t : RuleTable, t.IsReadInto v' ∧ g = .ofRules t.rules := by
  have read : Leaves v (readTable factors lines) fun v' rules =>
      (⟨rules, defaultSpanLimit, false⟩ : RuleTable).IsReadInto v' :=
    ⟨(readTable_named factors lines v).grows,
      fun result => ⟨factors, lines, v, _, Prod.ext result rfl, .refl _⟩⟩
  exact .bind read fun v' rules _ table => .pure ⟨_, table, rfl⟩

theorem new_loadedIn {ε : Type} (v : Vocabulary) :
    Leaves v (liftM new : Interning ε Parser) fun v' p =>
      p.LoadedIn [] v' ∧ v'.Names p.unknownLabel := by
  refine .state ((intern_extends _ _).trans (intern_extends v _)) ⟨⟨rfl, by simp⟩, ?_⟩
  exact ⟨_, symbol_intern _ defaultLabel⟩

theorem addFiles_loadedIn (factors : Nat) (files : List (String × Except String (List UInt8)))
    {p : Parser} {tables : List RuleTable} {v : Vocabulary} (h : p.LoadedIn tables v)
    (unknown : v.Names p.unknownLabel) :
    Leaves v (addFiles factors p files) fun v' p' =>
      (∃ tables', p'.LoadedIn tables' v') ∧ v'.Names p'.unknownLabel := by
  induction files generalizing p tables v with
  | nil => exact .pure ⟨⟨tables, h⟩, unknown⟩
  | cons entry files ih =>
      obtain ⟨file, content⟩ := entry
      cases content with
      | error cause => exact .throw _
      | ok bytes =>
          rw [addFiles]
          refine .bind ((readGrammar_leaves factors _ v).adapt _) ?_
          rintro v' g more ⟨t, read, rfl⟩
          exact ih ((h.mono more).addGrammar read) (more.names unknown)

/-- A parser that is loaded from files stands for tables in the vocabulary that is left, which names
the label for unknown words as well. -/
theorem ofFiles_loadedIn (factors : Nat) (files : List (String × Except String (List UInt8)))
    (v : Vocabulary) :
    Leaves v (ofFiles factors files) fun v' p =>
      (∃ tables, p.LoadedIn tables v') ∧ v'.Names p.unknownLabel := by
  refine .bind (new_loadedIn v) fun v' p _ loaded => ?_
  exact addFiles_loadedIn factors files ⟨loaded.1.grammars, loaded.1.read⟩ loaded.2

namespace LoadedIn

/-- The vocabulary of the small table, and the label for unknown words. -/
def nounVocabulary : Vocabulary := (((readTable 1 nounLines).run.run .empty).2.intern "X").2

theorem nounVocabulary_noun : nounVocabulary.symbol 1 = .ok "a" :=
  symbol_eq_ok_iff.2 ⟨1, rfl, by decide +kernel⟩

theorem nouns_named : ∀ id ∈ [1, 1], nounVocabulary.Names id := by
  intro id listed
  have noun : id = 1 := by simpa using listed
  exact noun ▸ ⟨"a", nounVocabulary_noun⟩

theorem nounParser_loadedIn : nounParser.LoadedIn [nounTable] nounVocabulary where
  grammars := rfl
  read t listed := by
    obtain rfl := List.mem_singleton.1 listed
    exact ⟨1, nounLines, .empty, _, nounTable_read, intern_extends _ _⟩

theorem nounParser_unknownNamed : nounParser.UnknownNamed nounVocabulary := fun _ =>
  ⟨"X", symbol_eq_ok_iff.2 ⟨4, rfl, by decide +kernel⟩⟩

end LoadedIn

end Parser

end PackedForest
