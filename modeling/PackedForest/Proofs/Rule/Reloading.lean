import PackedForest.Proofs.Rule.Rereading

/-!
# Tables that are displayed and loaded again

A table is accepted if each of its lines is text, and blank, a comment or the line of a rule
(`readTable_accepts`). The display of a rule is a line of its own, neither blank nor a comment; but
it is the line of a rule only if the head labels of the target sides do not hold the mark between
target sides (`Rule.Writable.ruleLine_write_iff`). A label of the source side may hold it, as
nothing parts the source side, and a target side without a head takes that label.

So the displays of an accepted table are a table that is accepted if and only if no rule has such a
label, and then it has the same rules (`readTable_render`).
-/

namespace PackedForest

open Text (Solid Tight)
open Interning (Accepts Leaves Returns Yields)

/-! ### Lines of a text -/

/-- The text that has these lines. -/
def Text.unlines (lines : List (List Char)) : List Char := lines.flatMap (· ++ ['\n'])

theorem Text.lines_unlines {lines : List (List Char)} (whole : ∀ line ∈ lines, '\n' ∉ line) :
    Text.lines (unlines lines) = lines := by
  have pieces : splitWhere (· == '\n') (unlines lines) = lines ++ [[]] := by
    induction lines with
    | nil => rfl
    | cons line lines ih =>
        obtain ⟨here, later⟩ := List.forall_mem_cons.1 whole
        have other : ∀ c ∈ line, (c == '\n') = false := fun c listed =>
          beq_false_of_ne fun same => here (same ▸ listed)
        have parts : unlines (line :: lines) = line ++ '\n' :: unlines lines := by
          simp [unlines]
        rw [parts, splitWhere_append_cons _ other rfl, ih later, List.cons_append]
  rw [Text.lines, linesWhere, pieces]
  simp

/-! ### Which tables are accepted -/

/-- A line of a table: text that is blank, a comment or the line of a rule. -/
def TableLine (factors : Nat) : Option (List Char) → Prop
  | none => False
  | some line => isRuleLine (Text.trim line) = true → RuleLine factors (Text.trim line)

theorem readLines_accepts (factors lineNumber : Nat) (lines : List (Option (List Char))) :
    Accepts (readLines factors lineNumber lines) (∀ line ∈ lines, TableLine factors line) := by
  induction lines generalizing lineNumber with
  | nil => exact (Accepts.pure _).iff (by simp)
  | cons line lines ih =>
      rw [List.forall_mem_cons]
      cases line with
      | none => exact (Accepts.throw _).iff ⟨False.elim, And.left⟩
      | some line =>
          rw [readLines]
          split
          · next isRule =>
              have here : RuleLine factors (Text.trim line) ↔ TableLine factors (some line) :=
                ⟨fun accepted _ => accepted, fun accepted => accepted isRule⟩
              exact .bind (P := fun _ => True) (((readRule_accepts factors _).adapt _).iff here)
                (fun _ _ _ _ => trivial) fun r _ => .last (ih _) fun _ => .pure _
          · next skipped =>
              exact (ih _).iff (and_iff_right fun isRule => absurd isRule skipped).symm

theorem readTable_accepts (factors : Nat) (lines : List (Option (List Char))) :
    Accepts (readTable factors lines) (∀ line ∈ lines, TableLine factors line) :=
  readLines_accepts factors 1 lines

/-- Rules that are accepted one after the other, each on a line of its own. -/
theorem readLines_yields {factors lineNumber : Nat} {v : Vocabulary} {lines : List (List Char)}
    {rules : List Rule} (each : List.Forall₂ (fun line r => Tight line ∧ isRuleLine line = true ∧
      Yields v (readRule factors line) r) lines rules) :
    Yields v (readLines factors lineNumber (lines.map some)) rules := by
  induction each generalizing lineNumber with
  | nil => exact .pure _
  | @cons line r lines rules first _ rest =>
      obtain ⟨tight, isRule, read⟩ := first
      rw [List.map_cons, readLines, tight.trim_eq, if_pos isRule]
      exact (read.adapt _).bind (rest.bind (.pure _))

/-! ### Displays as lines -/

section Newlines

variable {marks : List (List Char)}

theorem Text.Solid.newline_not_mem {cs : List Char} (solid : Solid cs) : '\n' ∉ cs := by
  intro listed
  have visible := solid '\n' listed
  revert visible
  decide

theorem SideText.newline_not_mem_write {tokens : List Token} {head : List Char}
    (writable : ∀ token ∈ tokens, token.Writable marks) (solid : Solid head) :
    '\n' ∉ write tokens head := by
  rw [write, List.mem_append, List.mem_flatMap]
  rintro (⟨token, listed, inside⟩ | inside)
  · have text := (writable token listed).solid_text.newline_not_mem
    simp [text] at inside
  · simp [solid.newline_not_mem] at inside

theorem Text.newline_not_mem_joined {m : Char} {ms : List Char} (mark : '\n' ∉ m :: ms)
    {sides : List (List Char)} (each : ∀ side ∈ sides, '\n' ∉ side) :
    '\n' ∉ joined m ms sides := by
  induction sides with
  | nil => exact List.not_mem_nil
  | cons side sides ih =>
      obtain ⟨here, later⟩ := List.forall_mem_cons.1 each
      by_cases last : sides = []
      · subst last
        rwa [joined, List.intercalate_singleton]
      · rw [List.mem_cons, not_or] at mark
        rw [joined_cons side last]
        simp [here, mark, ih later]

end Newlines

namespace Rule.Writable

variable {factors : Nat} {v : Vocabulary} {r : Rule} (h : r.Writable factors v)

include h

theorem tight_write : Tight (r.write v) := by
  have bars : Tight columnMark := Solid.tight (by decide)
  have ends : Tight (columnMark ++ writeFeatures v r.features.entries) :=
    tight_append_writeFeatures h.features bars (List.cons_ne_nil _ _)
  have whole := h.source_tight.between ends (SideText.write_ne_nil _ _) (List.cons_ne_nil _ _)
    (' ' :: (columnMark ++
      (' ' :: Text.joined '|' ['C', 'O', 'L', '|'] (r.writeTargets v 0 r.targets) ++ [' '])))
  simpa [write] using whole

/-- The line begins with a quote or with the name of a gap. -/
theorem isRuleLine_write : isRuleLine (r.write v) = true := by
  obtain ⟨symbol, side, parts⟩ := List.exists_cons_of_ne_nil h.wellFormed.source_ne_nil
  rw [write, writeSide, parts, List.map_cons, SideText.write, List.flatMap_cons]
  cases symbol <;> rfl

theorem newline_not_mem_write : '\n' ∉ r.write v := by
  have source : '\n' ∉ r.writeSide v 0 r.source := by
    obtain ⟨id, label, spelled⟩ := h.source_head
    rw [writeSide, headLabel_eq label]
    exact SideText.newline_not_mem_write (writable_tokens h.source_shown) spelled.spelling.2.2.solid
  have targets : '\n' ∉ Text.joined '|' ['C', 'O', 'L', '|'] (r.writeTargets v 0 r.targets) := by
    refine Text.newline_not_mem_joined (by decide) (forall_mem_writeTargets fun {i side} here => ?_)
    obtain ⟨id, label, spelled⟩ := h.target_head (h.target_inside here)
    rw [writeSide, headLabel_eq label]
    exact SideText.newline_not_mem_write (writable_tokens (h.target_shown here))
      spelled.spelling.2.2.solid
  have features : '\n' ∉ writeFeatures v r.features.entries := by
    rw [writeFeatures, List.mem_flatMap]
    rintro ⟨entry, listed, inside⟩
    have pair := (safe_writePair (h.features entry listed)).solid.newline_not_mem
    simp [pair] at inside
  simp [write, columnMark, source, targets, features]

/-- A display is the line of a rule unless a head label holds the mark between target sides. -/
theorem ruleLine_write_iff (some_target : r.targets ≠ []) :
    RuleLine factors (r.write v) ↔ r.HeadsApart v := by
  constructor
  · rintro ⟨source, target, features, more, columns, holds⟩
    rw [h.ruleColumns_write some_target] at columns
    cases columns
    exact (h.length_factorColumns_iff some_target).1 holds.sides
  · intro apart
    choose value read using Decimal.exists_read_plain
    have again := h.reads some_target apart fun entry _ => read entry.2
    exact (readRule_accepts factors _ v).1 ⟨_, congrArg Prod.fst again⟩

end Rule.Writable

/-! ### Tables and their displays -/

/-- What the lines of a table are read as can be written down, and has a target side. -/
theorem readTable_writable (factors : Nat) (lines : List (Option (List Char))) (v : Vocabulary) :
    Leaves v (readTable factors lines) fun v' rules =>
      ∀ r ∈ rules, r.Writable factors v' ∧ r.targets ≠ [] := by
  have sides : ∀ line, Returns (readRule factors line) fun r => r.targets ≠ [] :=
    fun line v r v' read => Rule.targets_ne_nil_of_read read
  exact readLines_leaves (fun more both => ⟨both.1.mono more, both.2⟩)
    (fun line v => (readRule_writable factors line v).and_returns (sides line)) 1 lines v

/-- The second rule is the first one, but for its source text and for the values of its features. -/
structure Rule.SameButValues (r s : Rule) : Prop where
  source : s.source = r.source
  targets : s.targets = r.targets
  head : s.head = r.head
  slots : s.slots = r.slots
  features : s.features.entries.map (·.1) = r.features.entries.map (·.1)

theorem Rule.sameButValues_reread (v : Vocabulary) (value : Float → Float) (r : Rule) :
    r.SameButValues (r.reread v value) where
  source := rfl
  targets := rfl
  head := rfl
  slots := rfl
  features := by
    have sorted : (r.features.entries.map fun entry => (entry.1, value entry.2)).Pairwise
        (·.1 < ·.1) := List.pairwise_map.2 r.features.sorted
    have entries : (r.reread v value).features.entries = _ := Features.entries_ofList sorted
    rw [entries, List.map_map]
    rfl

/-- The rules of an accepted table have displays, each the line of a rule by its looks. The table of
these lines is accepted if and only if no head label of a target side holds the mark between target
sides, and then it has the same rules and numbers no other strings. -/
theorem readTable_render {factors : Nat} {lines : List (Option (List Char))} {v v' : Vocabulary}
    {rules : List Rule} (read : (readTable factors lines).run.run v = (.ok rules, v')) :
    ∃ texts, rules.mapM (Rule.render v') = .ok texts ∧
      (∀ text ∈ texts, isRuleLine (Text.trim text.toList) = true) ∧
      match (readTable factors ((Text.lines
        (Text.unlines (texts.map String.toList))).map some)).run.run v' with
      | (.ok again, v'') => (∀ r ∈ rules, r.HeadsApart v') ∧ v'' = v' ∧
          again.length = rules.length ∧ List.Forall₂ Rule.SameButValues rules again
      | (.error _, _) => ¬ ∀ r ∈ rules, r.HeadsApart v' := by
  have writable : ∀ r ∈ rules, r.Writable factors v' ∧ r.targets ≠ [] := by
    have returned := @(readTable_writable factors lines v).returns
    rw [read] at returned
    exact returned rfl
  have written : (rules.map fun r => String.ofList (r.write v')).map String.toList =
      rules.map (Rule.write v') := by simp
  refine ⟨rules.map fun r => String.ofList (r.write v'),
    mapM_ok fun r listed => (writable r listed).1.render, ?_, ?_⟩
  · intro text listed
    obtain ⟨r, inside, rfl⟩ := List.mem_map.1 listed
    have w := (writable r inside).1
    rw [String.toList_ofList, w.tight_write.trim_eq]
    exact w.isRuleLine_write
  · have lines_eq : Text.lines (Text.unlines (rules.map (Rule.write v'))) =
        rules.map (Rule.write v') := by
      refine Text.lines_unlines fun line listed => ?_
      obtain ⟨r, inside, rfl⟩ := List.mem_map.1 listed
      exact (writable r inside).1.newline_not_mem_write
    rw [written, lines_eq]
    by_cases apart : ∀ r ∈ rules, r.HeadsApart v'
    · choose value value_read using Decimal.exists_read_plain
      have run : (readTable factors ((rules.map (Rule.write v')).map some)).run.run v' =
          (.ok (rules.map (Rule.reread v' value)), v') := by
        refine readLines_yields ?_
        rw [List.forall₂_map_left_iff, List.forall₂_map_right_iff, List.forall₂_same]
        intro r listed
        obtain ⟨w, some_target⟩ := writable r listed
        exact ⟨w.tight_write, w.isRuleLine_write,
          w.reads some_target (apart r listed) fun entry _ => value_read entry.2⟩
      rw [run]
      refine ⟨apart, rfl, List.length_map _, ?_⟩
      rw [List.forall₂_map_right_iff, List.forall₂_same]
      exact fun r _ => r.sameButValues_reread v' value
    · cases run : (readTable factors ((rules.map (Rule.write v')).map some)).run.run v' with
      | mk result v'' =>
          cases result with
          | error e => exact apart
          | ok again =>
              have accepted := (readTable_accepts factors _ v').1 ⟨again, congrArg Prod.fst run⟩
              refine absurd (fun r listed => ?_) apart
              obtain ⟨w, some_target⟩ := writable r listed
              have line := accepted _ (List.mem_map_of_mem (List.mem_map_of_mem listed))
              rw [TableLine, w.tight_write.trim_eq] at line
              exact (w.ruleLine_write_iff some_target).1 (line w.isRuleLine_write)

/-- The display of the sample is a table of one rule again. -/
theorem readTable_render_sample : ∃ rules v' texts again,
    (readTable 1 [some sampleLine]).run.run .empty = (.ok rules, v') ∧
    rules.mapM (Rule.render v') = .ok texts ∧
    (readTable 1 ((Text.lines (Text.unlines (texts.map String.toList))).map some)).run.run v' =
      (.ok again, v') ∧ again.length = rules.length := by
  have heads : ((readTable 1 [some sampleLine]).run.run .empty).1.toOption.map (fun rules =>
      rules.all fun r => decide (r.HeadsApart ((readTable 1 [some sampleLine]).run.run .empty).2)) =
      some true := by decide +kernel
  cases run : (readTable 1 [some sampleLine]).run.run .empty with
  | mk result v' =>
      rw [run] at heads
      cases result with
      | error e => cases heads
      | ok rules =>
          have apart : ∀ r ∈ rules, r.HeadsApart v' := fun r listed =>
            of_decide_eq_true (List.all_eq_true.1 (Option.some.inj heads) r listed)
          obtain ⟨texts, displayed, -, reloaded⟩ := readTable_render run
          split at reloaded
          · next again v'' run' =>
              obtain ⟨-, rfl, length, -⟩ := reloaded
              exact ⟨rules, v'', texts, again, rfl, displayed, run', length⟩
          · exact absurd apart reloaded

/-- A source label that holds the mark between target sides, and a target side without a head. -/
def markedLine : List Char := "\"a\" @ A|COL|B ||| \"b\" |||".toList

def markedDisplay : String := "\"a\" @ A|COL|B ||| \"b\" @ A|COL|B |||"

/-- The line is accepted for one factor, but its display has two target sides. -/
theorem readTable_render_marked : ∃ rules v',
    (readTable 1 [some markedLine]).run.run .empty = (.ok rules, v') ∧
    rules.mapM (Rule.render v') = .ok [markedDisplay] ∧
    ∀ again v'', (readTable 1 [some markedDisplay.toList]).run.run v' ≠ (.ok again, v'') := by
  have displayed : ((readTable 1 [some markedLine]).run.run .empty).1.toOption.bind (fun rules =>
      (rules.mapM (Rule.render ((readTable 1 [some markedLine]).run.run .empty).2)).toOption) =
      some [markedDisplay] := by decide +kernel
  have refused : ((readTable 1 [some markedDisplay.toList]).run.run
      ((readTable 1 [some markedLine]).run.run .empty).2).1.toOption.isNone = true := by
    decide +kernel
  cases run : (readTable 1 [some markedLine]).run.run .empty with
  | mk result v' =>
      rw [run] at displayed refused
      cases result with
      | error e => cases displayed
      | ok rules =>
          have texts : (rules.mapM (Rule.render v')).toOption = _ := displayed
          refine ⟨rules, v', rfl, ?_, ?_⟩
          · cases display : rules.mapM (Rule.render v') with
            | error fault =>
                rw [display] at texts
                cases texts
            | ok texts' =>
                rw [display] at texts
                exact congrArg Except.ok (Option.some.inj texts)
          · intro again v'' accepted
            rw [accepted] at refused
            cases refused

end PackedForest
