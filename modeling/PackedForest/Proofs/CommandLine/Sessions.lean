import PackedForest.CommandLine.Session
import PackedForest.Proofs.Parser.Faultless

/-!
# Sessions that do not fault

The parser of a session that is started was loaded into the vocabulary of the session, and the label
for unknown words is numbered there as well, whether it is the customary one or that of the options
(`CommandLine.start_loadedIn`). Where the number of target factors leaves room, such a session
answers every line (`CommandLine.Session.Ready.answer_succeeds`) and is as ready for the next one,
so the run goes on to the end of its input (`CommandLine.status_run`).
-/

namespace PackedForest.CommandLine

open Interning (Leaves)
open Vocabulary

/-! ### How sessions start -/

theorem labelOr_leaves {ε : Type} {v : Vocabulary} {label : WordId} (name : Option String) :
    Leaves v (liftM (labelOr label name) : Interning ε WordId)
      fun v' id => v.Names label → v'.Names id := by
  cases name with
  | none => exact .state (.refl v) id
  | some s => exact .state (intern_extends v s) fun _ => ⟨s, symbol_intern v s⟩

theorem openParser_loadedIn (o : Options) (files : List (String × Except String (List UInt8)))
    (v : Vocabulary) : Leaves v (openParser o files) fun v' p =>
      (∃ tables, p.LoadedIn tables v') ∧ v'.Names p.unknownLabel := by
  refine .bind ((Parser.ofFiles_loadedIn o.factors files v).adapt _) ?_
  rintro v₁ p - loaded
  extract_lets settings
  have rest : ∀ p, (∃ tables, p.LoadedIn tables v₁) ∧ v₁.Names p.unknownLabel →
      Leaves v₁ (settings p) fun v' p =>
        (∃ tables, p.LoadedIn tables v') ∧ v'.Names p.unknownLabel := by
    rintro p ⟨⟨tables, loaded⟩, named⟩
    refine .bind (labelOr_leaves o.root) fun v₂ rootLabel more₂ _ => ?_
    refine .bind (labelOr_leaves o.unknown) fun v₃ unknownLabel more₃ kept => ?_
    have all := ((loaded.mono more₂).mono more₃).setKeepSourceText o.keepSourceText
    exact .pure ⟨⟨_, all.grammars, all.read⟩, kept (more₂.names named)⟩
  cases o.spanLimits with
  | none => exact rest p loaded
  | some limits =>
      obtain ⟨⟨tables, loaded⟩, named⟩ := loaded
      rw [Option.map_some]
      cases accepted : p.setSpanLimits limits with
      | error e => exact .bind (.throw (P := fun _ _ => False) _) fun _ _ _ never => never.elim
      | ok p' =>
          have label : p'.unknownLabel = p.unknownLabel := by
            unfold Parser.setSpanLimits at accepted
            split at accepted <;> cases accepted
            rfl
          exact rest p' ⟨⟨_, loaded.setSpanLimits accepted⟩, label ▸ named⟩

/-- The parser of a session that is started was loaded into the vocabulary of the session, which
names the label for unknown words. -/
theorem start_loadedIn {program : String} {arguments : List String}
    {files : List (String × Except String (List UInt8))} {s : Session}
    (started : start program arguments files = .inr s) :
    (∃ tables, s.parser.LoadedIn tables s.vocabulary) ∧ s.parser.UnknownNamed s.vocabulary := by
  unfold start at started
  split at started
  · cases started
  · cases started
  · next o _ =>
      have opened := openParser_loadedIn o files .empty
      rcases result : (openParser o files).run .empty with ⟨_ | p, v⟩
      · rw [result] at started
        cases started
      · rw [result] at started
        cases started
        have loaded := opened.returns (a := p) (congrArg Prod.fst result)
        have left : ((openParser o files).run.run .empty).2 = v := congrArg Prod.snd result
        rw [left] at loaded
        exact ⟨loaded.1, fun _ => loaded.2⟩

/-! ### How they go on -/

/-- What a session needs to answer every line. -/
structure Session.Ready (s : Session) (tables : List RuleTable) : Prop where
  loaded : s.parser.LoadedIn tables s.vocabulary
  unknown : s.parser.UnknownNamed s.vocabulary
  room : s.parser.HasRoom
  exponential : ∀ t ∈ tables, ∀ r ∈ t.rules,
    r.features.total < 0.0 → isProbability r.features.total.exp = true

namespace Session.Ready

variable {s : Session} {tables : List RuleTable} (h : s.Ready tables)

include h

/-- A session is as ready after an answer as before. -/
theorem answer (sentence : String) : (s.answer sentence).2.Ready tables :=
  ⟨(h.loaded.internWords sentence).1, h.unknown.mono (internWords_spec sentence s.vocabulary).1,
    h.room, h.exponential⟩

theorem derivationReport_succeeds {sentence : List WordId}
    (known : ∀ id ∈ sentence, s.vocabulary.Names id) {root : NodeId}
    (found : s.parser.root? (s.parser.parse sentence) = some root) (trees : Nat) :
    Succeeds (derivationReport s.vocabulary (s.parser.parse sentence).graph root trees) := by
  obtain ⟨fills, filled⟩ := s.parser.parse_filled sentence
  have indexed := s.parser.graph_indexed sentence
  have acyclic := s.parser.graph_acyclic sentence
  have inside := filled.wellFormed.lt_size found
  obtain ⟨derived, each⟩ := h.loaded.derivations_read_out h.unknown known h.exponential indexed
    acyclic true inside trees
  refine .bind ⟨_, Graph.derivationCount_eq indexed acyclic inside⟩ fun count _ => ?_
  refine .bind ⟨_, derived⟩ fun ds enumerated => .bind (.mapM fun d listed => ?_) fun _ _ => .pure _
  obtain rfl := Except.ok.inj (derived.symm.trans enumerated)
  obtain ⟨tree, features, -⟩ := each d listed
  exact .bind tree fun _ _ => .bind features fun _ _ => .pure _

theorem report_succeeds {sentence : List WordId}
    (known : ∀ id ∈ sentence, s.vocabulary.Names id) :
    Succeeds (report s (s.parser.parse sentence)) := by
  have shown := Graph.render_succeeds (s.parser.graph_indexed sentence)
    (h.loaded.graph_named h.unknown known)
  rw [report, h.room.tryRoot_eq]
  cases found : s.parser.root? (s.parser.parse sentence) with
  | none =>
      split
      · exact .pure _
      · exact .bind shown fun _ _ => .pure _
  | some root =>
      have told : ∀ forest : String, Succeeds (derivationReport s.vocabulary
          (s.parser.parse sentence).graph root s.options.trees >>= fun derivations =>
            pure (forest ++ derivations)) := fun _ =>
        .bind (h.derivationReport_succeeds known found s.options.trees) fun _ _ => .pure _
      split
      · exact told _
      · exact .bind shown fun forest _ => told forest

/-- Every line is answered. -/
theorem answer_succeeds (sentence : String) : Succeeds (s.answer sentence).1 := by
  have ready := h.answer sentence
  have known := (h.loaded.internWords sentence).2
  have built : (s.answer sentence).1 =
      s.parser.build ((internWords sentence).run s.vocabulary).1 >>=
        report (s.answer sentence).2 := rfl
  rw [built, h.room.build_eq, ok_bind]
  exact ready.report_succeeds known

/-- The session goes on to the end of its input. -/
theorem status_transcript (lines : List String) : (s.transcript lines).status = 0 := by
  induction lines generalizing s with
  | nil => rfl
  | cons line lines ih =>
      obtain ⟨answer, answered⟩ := h.answer_succeeds line
      rw [transcript]
      have next := ih (h.answer line)
      rcases result : s.answer line with ⟨_ | _, s'⟩
      · rw [result] at answered
        cases answered
      · rw [result] at next
        exact next

end Session.Ready

/-- A run that starts a session ends well, whatever its input, if the settings leave room. -/
theorem status_run {program : String} {arguments : List String}
    {files : List (String × Except String (List UInt8))} {s : Session}
    (started : start program arguments files = .inr s) (room : s.parser.HasRoom)
    (exponential : ∀ x : Float, x < 0.0 → isProbability x.exp = true) (input : List String) :
    (run program arguments files input).status = 0 := by
  obtain ⟨⟨tables, loaded⟩, unknown⟩ := start_loadedIn started
  have ready : s.Ready tables := ⟨loaded, unknown, room, fun _ _ _ _ => exponential _⟩
  rw [run, started]
  exact ready.status_transcript input

end PackedForest.CommandLine
