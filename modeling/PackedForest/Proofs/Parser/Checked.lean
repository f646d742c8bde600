import PackedForest.Proofs.Graph.Built
import PackedForest.Proofs.Parser.Contents
import PackedForest.Proofs.Parser.Room
import PackedForest.Proofs.Trie.Numbering

/-!
# Parsing with every access checked

The definitions of the parser follow the branches of a trie and add the edges that they are given.
The checked parser goes by numbers, as one does that lays its tries out flat. It fetches rows, rule
sets, words and unary rules from their places, it compares the tails of an application with the
slots of its rule, and it adds nodes and edges by the operations that may refuse them. It makes the
rule for an unknown word, and at the end the tuple of the node for the whole sentence, by operations
that refuse lists that are too long. Each of these steps may stop it, and so may a worklist that
does not come to an end.

Where the grammars were loaded from tables, it is only the settings that stop it, and they stop the
parser just as well (`Parser.LoadedFrom.parseChecked_eq`).
-/

namespace PackedForest

/-- Why the checked parser stops. -/
inductive ParseFault
  | fault (fault : Fault)
  | tailCount (tails slots : Nat)
  | unfinished (place : Nat)

/-- What stands at a place. -/
def fetch {α : Type} (as : List α) (place : Nat) : Except ParseFault α :=
  match as[place]? with
  | some a => .ok a
  | none => .error (.fault (.indexOutOfRange place as.length))

/-- The matches from the node of a number on, through the words from `pos` up to `stop`. -/
def Grammar.walkChecked (g : Grammar) (sentence : List WordId) (chart : Chart) (start stop : Nat)
    (number pos : Nat) : Except ParseFault (List Match) := do
  let row ← fetch g.trie.rows number
  if pos < stop then
    let word ← fetch sentence pos
    let byWord ← (row.words.lookup word).elim (pure []) fun next =>
      g.walkChecked sentence chart start stop next (pos + 1)
    let widest := if pos = start then stop - pos - 1 else stop - pos
    let byGap ← row.gaps.mapM fun gap => (List.range widest).mapM fun more =>
      (chart.find? ⟨pos, pos + more + 1⟩ gap.1).elim (pure []) fun tail => do
        let later ← g.walkChecked sentence chart start stop gap.2 (pos + more + 1)
        return later.map (Match.withTail tail)
    return byWord ++ byGap.flatMap List.flatten
  else
    match row.ruleSet with
    | some set => do
      let rules ← fetch g.trie.ruleSets set
      return rules.map (⟨·, []⟩)
    | none => return []
termination_by stop - pos

def Grammar.matchingChecked (g : Grammar) (sentence : List WordId) (chart : Chart) (span : Span) :
    Except ParseFault (List Match) :=
  if span.stop - span.start ≤ g.spanLimit then
    g.walkChecked sentence chart span.start span.stop 0 span.start
  else return []

def Forest.findOrAddChecked (f : Forest) (span : Span) (labels : Labels) :
    Except ParseFault (NodeId × Bool × Forest) :=
  match f.chart.find? span labels with
  | some id => return (id, false, f)
  | none => do
    let (id, graph) ← (f.graph.addNode (.new labels.source span)).mapError .fault
    return (id, true, ⟨graph, f.chart.insert span labels id⟩)

def SpanProgress.applyChecked (span : Span) (p : SpanProgress) (a : Application) :
    Except ParseFault SpanProgress :=
  if a.tails.length = a.rule.slots.length then do
    let (head, isNew, forest) ← p.forest.findOrAddChecked span a.rule.head
    let (_, graph) ← (forest.graph.addEdge (a.edge head)).mapError .fault
    return {
      forest := { forest with graph }
      fresh := if isNew then p.fresh ++ [a.rule.head] else p.fresh }
  else throw (.tailCount a.tails.length a.rule.slots.length)

namespace UnaryProgress

def applyChecked (span : Span) (place : Nat) (g : Grammar) (p : UnaryProgress)
    (step : UnaryStep) : Except ParseFault UnaryProgress :=
  if p.tried.contains (place, step.rule) then return p
  else do
    let p := { p with tried := (place, step.rule) :: p.tried }
    let rule ← fetch g.unaries step.rule
    (p.span.forest.chart.find? span step.tail).elim (pure p) fun tail =>
      let head? := p.span.forest.chart.find? span rule.head
      if head?.any (Reachability.reaches p.links tail) then return p
      else do
        let after ← p.span.applyChecked span ⟨rule, [tail], g.keepSourceText⟩
        let head := head?.getD p.span.forest.graph.nodes.size
        return { p with span := after, links := (head, tail) :: p.links }

def applyClosuresChecked (span : Span) (grammars : List Grammar) (p : UnaryProgress)
    (labels : Labels) : Except ParseFault UnaryProgress :=
  grammars.zipIdx.foldlM
    (fun p x => (x.1.unaries.closure labels).foldlM (applyChecked span x.2 x.1) p) p

def runChecked (span : Span) (grammars : List Grammar) :
    (fuel place : Nat) → UnaryProgress → Except ParseFault UnaryProgress
  | 0, place, p => if p.span.fresh[place]?.isSome then throw (.unfinished place) else return p
  | fuel + 1, place, p =>
    match p.span.fresh[place]? with
    | none => return p
    | some labels => do
      runChecked span grammars fuel (place + 1) (← p.applyClosuresChecked span grammars labels)

end UnaryProgress

def SpanProgress.applyUnariesChecked (span : Span) (grammars : List Grammar) (p : SpanProgress) :
    Except ParseFault SpanProgress := do
  let fuel := p.fresh.length + (grammars.flatMap (·.unaries)).length
  return (← UnaryProgress.runChecked span grammars fuel 0 ⟨p, [], []⟩).span

namespace Parser

def matchingChecked (p : Parser) (sentence : List WordId) (chart : Chart) (span : Span) :
    Except ParseFault (List Application) := do
  let found ← p.grammars.mapM fun g => do
    let found ← g.matchingChecked sentence chart span
    return found.map fun m => (⟨m.rule, m.tails, g.keepSourceText⟩ : Application)
  return found.flatten

def applicationsChecked (p : Parser) (sentence : List WordId) (chart : Chart) (span : Span) :
    Except ParseFault (List Application) := do
  let found ← p.matchingChecked sentence chart span
  if found.isEmpty ∧ span.stop - span.start = 1 then
    let word ← fetch sentence span.start
    if p.deleteUnknown then return []
    let rule ← (p.tryUnknownRule word).mapError .fault
    return [⟨rule, [], p.keepSourceText⟩]
  else return found

def fillSpanChecked (p : Parser) (sentence : List WordId) (f : Forest) (span : Span) :
    Except ParseFault Forest := do
  let found ← p.applicationsChecked sentence f.chart span
  let matched ← found.foldlM (SpanProgress.applyChecked span) ⟨f, []⟩
  return (← matched.applyUnariesChecked span p.grammars).forest

/-- The forest of a sentence, or what stops the parser. -/
def parseChecked (p : Parser) (sentence : List WordId) : Except ParseFault Forest := do
  let f ← (Span.upTo sentence.length).foldlM (p.fillSpanChecked sentence)
    ⟨{ Graph.empty with words := sentence }, .empty⟩
  unless sentence.isEmpty do discard ((p.tryRoot f).mapError .fault)
  return f

end Parser

/-! ### No check fails -/

section

variable {ε α β : Type}

theorem ok_bind (a : α) (f : α → Except ε β) : ((.ok a : Except ε α) >>= f) = f a := rfl

theorem foldlM_ok {P : β → Prop} {f : β → α → Except ε β} {g : β → α → β} {as : List α}
    (step : ∀ a ∈ as, ∀ b, P b → f b a = .ok (g b a) ∧ P (g b a)) {b : β} (start : P b) :
    as.foldlM f b = .ok (as.foldl g b) ∧ P (as.foldl g b) := by
  induction as generalizing b with
  | nil => exact ⟨rfl, start⟩
  | cons a as ih =>
      obtain ⟨here, kept⟩ := step a List.mem_cons_self b start
      rw [List.foldlM_cons, here, ok_bind]
      exact ih (fun a member => step a (List.mem_cons_of_mem _ member)) kept

theorem fetch_eq {as : List α} {place : Nat} {a : α} (here : as[place]? = some a) :
    fetch as place = .ok a := by
  rw [fetch, here]

end

/-- The matches by a gap, for a piece of each width below the given one. -/
def Match.byGap (chart : Chart) (start : Nat) (u : Trie) (pos widest : Nat)
    (words : List WordId) : List (List (List Match)) :=
  u.gapBranches.map fun branch => (List.range widest).map fun more =>
    ((chart.find? ⟨pos, pos + more + 1⟩ branch.1).map fun tail =>
      (through chart start branch.2 (pos + more + 1) (words.drop more)).map (withTail tail)).getD []

theorem Match.through_cons_eq (chart : Chart) (start : Nat) (u : Trie) (pos : Nat) (word : WordId)
    (words : List WordId) : through chart start u pos (word :: words) =
      ((u.child? (.word word)).map fun child =>
        through chart start child (pos + 1) words).getD [] ++
      (byGap chart start u pos (if pos = start then words.length else words.length + 1)
        words).flatMap List.flatten := by
  rw [through, byGap, List.flatMap_map]
  congr 1
  · cases u.child? (.word word) <;> rfl
  · refine List.flatMap_congr fun branch _ => ?_
    rw [← List.flatMap_def]
    refine List.flatMap_congr fun more _ => ?_
    cases chart.find? ⟨pos, pos + more + 1⟩ branch.1 <;> rfl

theorem Grammar.walkChecked_eq {g : Grammar} (arranged : g.trie.Arranged) {sentence : List WordId}
    {start stop : Nat} (inside : stop ≤ sentence.length) (chart : Chart) {u : Trie}
    (node : u ∈ g.trie.nodes) {pos : Nat} (last : pos ≤ stop) :
    g.walkChecked sentence chart start stop u.number pos =
      .ok (Match.through chart start u pos ((sentence.drop pos).take (stop - pos))) := by
  induction left : stop - pos using Nat.strong_induction_on generalizing u pos with
  | _ left ih =>
      subst left
      rw [walkChecked, fetch_eq (arranged.row u node), ok_bind]
      have distinct := arranged.distinct.of_mem_nodes node
      by_cases more : pos < stop
      · have present : pos < sentence.length := Nat.lt_of_lt_of_le more inside
        have later : ∀ {step child}, (step, child) ∈ u.branches → ∀ next, pos < next →
            next ≤ stop → g.walkChecked sentence chart start stop child.number next =
              .ok (Match.through chart start child next
                ((sentence.drop next).take (stop - next))) :=
          fun branch next _ last => ih _ (by omega) (Trie.mem_nodes_of_branch node branch) last rfl
        rw [Rule.words_cons more present, Match.through_cons_eq, if_pos more,
          fetch_eq (List.getElem?_eq_getElem present), ok_bind]
        refine bind_ok ?_ (bind_ok ?_ rfl)
        · rw [distinct.lookup_words]
          cases branch : u.child? (.word sentence[pos]) with
          | none => rfl
          | some child => exact later (Trie.mem_of_child? branch) _ (Nat.lt_succ_self _) more
        · have widest : (if pos = start then stop - pos - 1 else stop - pos) =
              if pos = start then ((sentence.drop (pos + 1)).take (stop - (pos + 1))).length
                else ((sentence.drop (pos + 1)).take (stop - (pos + 1))).length + 1 := by
            rw [List.length_take, List.length_drop]
            split <;> omega
          rw [Trie.row, ← widest, List.mapM_map]
          refine mapM_ok fun branch listed => mapM_ok fun wider narrow => ?_
          cases chart.find? ⟨pos, pos + wider + 1⟩ branch.1 with
          | none => rfl
          | some tail =>
              have fits : pos + wider + 1 ≤ stop := by
                rw [List.mem_range] at narrow
                split at narrow <;> omega
              refine bind_ok (later (Trie.mem_gapBranches.1 listed) _ (by omega) fits) ?_
              rw [← Nat.add_right_comm pos 1 wider, ← Rule.drop_words]
              rfl
      · obtain rfl : pos = stop := by omega
        rw [if_neg more, Nat.sub_self, List.take_zero, Match.through, Trie.rules, Trie.row]
        cases here : u.ruleSet with
        | none => rfl
        | some set => exact bind_ok (fetch_eq (arranged.rules u node set here)) rfl

theorem Grammar.matchingChecked_eq {g : Grammar} (arranged : g.trie.Arranged)
    {sentence : List WordId} {span : Span} (known : span ∈ Span.upTo sentence.length)
    (chart : Chart) : g.matchingChecked sentence chart span = .ok (g.matching chart span.start
      ((sentence.drop span.start).take (span.stop - span.start))) := by
  obtain ⟨nonempty, inside⟩ := Span.mem_upTo.1 known
  rw [matchingChecked, matching, length_words known]
  split
  · rw [← arranged.root]
    exact walkChecked_eq arranged inside chart (Trie.mem_nodes_self _) (Nat.le_of_lt nonempty)
  · rfl

theorem Forest.findOrAddChecked_eq (f : Forest) (span : Span) (labels : Labels) :
    f.findOrAddChecked span labels = .ok (f.findOrAdd span labels) := by
  unfold findOrAddChecked findOrAdd
  cases f.chart.find? span labels with
  | some id => rfl
  | none =>
      dsimp only
      rw [Graph.addNode_eq_ok _ rfl rfl]
      rfl

theorem SpanProgress.applyChecked_eq {p : SpanProgress} (wf : p.forest.WellFormed) (span : Span)
    {a : Application} (grounded : a.Grounded p.forest.chart)
    (tails : a.tails.length = a.rule.slots.length) :
    p.applyChecked span a = .ok (p.apply span a) := by
  obtain ⟨head, isNew, f, result, shares⟩ := Forest.findOrAdd_shares wf span a.rule.head
  have added : f.graph.addEdge (a.edge head) =
      .ok (f.graph.edges.size, f.graph.pushEdge (a.edge head)) := by
    refine Graph.addEdge_eq_ok rfl (shares.wellFormed.lt_size shares.find?_key) ?_
    intro t member
    obtain ⟨piece, labels, found⟩ := grounded t member
    exact shares.wellFormed.lt_size (shares.find?_of found)
  rw [applyChecked, if_pos tails, Forest.findOrAddChecked_eq, apply, result, ok_bind]
  dsimp only
  rw [added]
  rfl

namespace UnaryProgress

variable {span : Span} {p : UnaryProgress}

theorem applyChecked_eq (wf : p.span.forest.WellFormed) (place : Nat) {g : Grammar}
    {step : UnaryStep} {rule : Rule} (stored : g.unaries[step.rule]? = some rule)
    (single : rule.slots.length = 1) : p.applyChecked span place g step =
      .ok (p.apply span place g step) ∧ (p.apply span place g step).span.forest.WellFormed := by
  unfold applyChecked apply
  by_cases tried : (place, step.rule) ∈ p.tried
  · rw [if_pos (List.contains_iff_mem.2 tried), if_pos tried]
    exact ⟨rfl, wf⟩
  · rw [if_neg (mt List.contains_iff_mem.1 tried), if_neg tried, fetch_eq stored, ok_bind, stored]
    dsimp only
    cases found : p.span.forest.chart.find? span step.tail with
    | none => exact ⟨rfl, wf⟩
    | some tail =>
        rw [Option.elim_some]
        dsimp only
        split
        · exact ⟨rfl, wf⟩
        · have grounded : Application.Grounded ⟨rule, [tail], g.keepSourceText⟩
              p.span.forest.chart := by
            simpa [Application.Grounded] using ⟨span, step.tail, found⟩
          rw [SpanProgress.applyChecked_eq wf span grounded single.symm]
          exact ⟨rfl, (SpanProgress.apply_grows wf span grounded).wellFormed⟩

variable {grammars : List Grammar} (unary : ∀ g ∈ grammars, ∀ r ∈ g.unaries, r.slots.length = 1)

include unary

theorem applyClosuresChecked_eq (wf : p.span.forest.WellFormed) (labels : Labels) :
    p.applyClosuresChecked span grammars labels = .ok (p.applyClosures span grammars labels) ∧
      (p.applyClosures span grammars labels).span.forest.WellFormed := by
  refine foldlM_ok (P := fun p : UnaryProgress => p.span.forest.WellFormed)
    (fun x listed p wf => ?_) wf
  refine foldlM_ok (P := fun p : UnaryProgress => p.span.forest.WellFormed)
    (fun step member p wf => ?_) wf
  obtain ⟨rule, stored⟩ := UnaryRules.exists_rule_of_mem_closure member
  exact applyChecked_eq wf x.2 stored
    (unary x.1 (List.fst_mem_of_mem_zipIdx listed) rule (List.mem_of_getElem? stored))

/-- A run that ends is checked throughout. -/
theorem runChecked_eq (wf : p.span.forest.WellFormed) {fuel place : Nat}
    (ends : (run span grammars fuel place p).span.fresh[place + fuel]? = none) :
    runChecked span grammars fuel place p = .ok (run span grammars fuel place p) := by
  induction fuel generalizing place p with
  | zero =>
      rw [run, Nat.add_zero] at ends
      rw [runChecked, ends]
      rfl
  | succ fuel ih =>
      rw [run] at ends ⊢
      rw [runChecked]
      cases here : p.span.fresh[place]? with
      | none => rfl
      | some labels =>
          obtain ⟨checked, kept⟩ : p.applyClosuresChecked span grammars labels =
              .ok (p.applyClosures span grammars labels) ∧ _ :=
            applyClosuresChecked_eq unary wf labels
          rw [here] at ends
          dsimp only
          rw [checked, ok_bind]
          exact ih kept (by rwa [Nat.add_right_comm, Nat.add_assoc])

end UnaryProgress

theorem SpanProgress.applyUnariesChecked_eq {span : Span} {p : SpanProgress}
    (wf : p.forest.WellFormed) (tracks : p.Tracks span) {grammars : List Grammar}
    (unary : ∀ g ∈ grammars, ∀ r ∈ g.unaries, r.slots.length = 1) :
    p.applyUnariesChecked span grammars = .ok (p.applyUnaries span grammars) := by
  have ends := UnaryProgress.rounds_exhausted wf tracks grammars (Nat.le_refl _)
  refine bind_ok (UnaryProgress.runChecked_eq unary wf ?_) rfl
  rw [Nat.zero_add]
  exact ends

namespace Parser.LoadedFrom

variable {p : Parser} {tables : List RuleTable} {sentence : List WordId}
  (h : p.LoadedFrom tables)

include h

theorem arranged {g : Grammar} (listed : g ∈ p.grammars) : g.trie.Arranged := by
  rw [h.grammars] at listed
  obtain ⟨t, -, rfl⟩ := List.mem_map.1 listed
  exact Trie.ofEntries_arranged _

theorem slots_of_unary {g : Grammar} (listed : g ∈ p.grammars) :
    ∀ r ∈ g.unaries, r.slots.length = 1 := by
  rw [h.grammars] at listed
  obtain ⟨t, table, rfl⟩ := List.mem_map.1 listed
  intro r unary
  obtain ⟨stored, single⟩ := List.mem_filter.1 unary
  exact ((h.read t table).wellFormed stored).slots_of_isUnary single

theorem matchingChecked_eq {span : Span} (known : span ∈ Span.upTo sentence.length)
    (chart : Chart) : p.matchingChecked sentence chart span = .ok (p.matching chart span.start
      ((sentence.drop span.start).take (span.stop - span.start))) := by
  refine bind_ok (mapM_ok fun g listed =>
    bind_ok (g.matchingChecked_eq (h.arranged listed) known chart) rfl) ?_
  rw [← List.flatMap_def]
  rfl

/-- The checked parser finds what the parser does, once it has made the rule for a word that is
passed through. -/
theorem applicationsChecked_eq {span : Span} (known : span ∈ Span.upTo sentence.length)
    (chart : Chart) : p.applicationsChecked sentence chart span =
      ((p.checkUnknown chart span.start
        ((sentence.drop span.start).take (span.stop - span.start))).mapError .fault >>= fun _ =>
          .ok (p.found sentence chart span)) := by
  have length := length_words known
  rw [applicationsChecked, h.matchingChecked_eq known, ok_bind]
  unfold found applications
  generalize words : (sentence.drop span.start).take (span.stop - span.start) = spanned at length ⊢
  by_cases single : span.stop - span.start = 1
  · obtain ⟨word, rfl⟩ := List.length_eq_one_iff.1 (length.trans single)
    have here : sentence[span.start]? = some word := by
      have first := congrArg (·[0]?) words
      rw [List.getElem?_take_of_lt (by omega), List.getElem?_drop] at first
      exact first
    rw [checkUnknown]
    cases p.matching chart span.start [word] with
    | cons a as =>
        rw [if_neg (by simp), if_pos (by simp)]
        rfl
    | nil =>
        rw [if_pos ⟨rfl, single⟩, fetch_eq here, ok_bind]
        cases keeps : p.deleteUnknown with
        | true => rfl
        | false =>
            rcases p.tryUnknownRule_gives keeps word with made | ⟨-, stopped⟩
            · rw [made]
              rfl
            · rw [stopped]
              rfl
  · rw [if_neg fun both => single both.2]
    rcases spanned with _ | ⟨word, _ | ⟨word', more⟩⟩
    · cases p.matching chart span.start [] <;> rfl
    · exact absurd length.symm single
    · cases p.matching chart span.start (word :: word' :: more) <;> rfl

/-- Filling a span stops the checked parser where it stops the parser, and nowhere else. -/
theorem fillSpanChecked_eq {f : Forest} (wf : f.WellFormed) {span : Span}
    (known : span ∈ Span.upTo sentence.length)
    (new : ∀ labels, f.chart.find? span labels = none) :
    p.fillSpanChecked sentence f span = (p.buildSpan sentence f span).mapError .fault := by
  have matched : (p.found sentence f.chart span).foldlM (SpanProgress.applyChecked span) ⟨f, []⟩ =
      .ok (p.matched sentence f span) := by
    refine (foldlM_ok (P := fun q : SpanProgress => q.forest.WellFormed ∧
      ∀ a ∈ p.found sentence f.chart span, a.Grounded q.forest.chart) ?_
      ⟨wf, p.grounded_found sentence known⟩).1
    intro a member q ⟨wf, grounded⟩
    have grows := SpanProgress.apply_grows wf span (grounded a member)
    exact ⟨SpanProgress.applyChecked_eq wf span (grounded a member)
      (h.found_complete known member).tails, grows.wellFormed,
      fun b member => (grounded b member).mono grows⟩
  have unaries := SpanProgress.applyUnariesChecked_eq (p.matched_grows sentence wf known).wellFormed
    (p.matched_tracks sentence wf known new) fun g listed => h.slots_of_unary listed
  rw [fillSpanChecked, h.applicationsChecked_eq known, buildSpan]
  cases p.checkUnknown f.chart span.start
      ((sentence.drop span.start).take (span.stop - span.start)) with
  | error fault => rfl
  | ok _ =>
      change ((p.found sentence f.chart span).foldlM (SpanProgress.applyChecked span) ⟨f, []⟩ >>=
        fun q => q.applyUnariesChecked span p.grammars >>= fun q => pure q.forest) = _
      exact bind_ok matched (bind_ok unaries rfl)

/-- The checked parser returns what the parser does: nothing that it fetches is missing, no
application has too many tails or too few, no node or edge is refused, and every worklist ends. -/
theorem parseChecked_eq : p.parseChecked sentence = (p.build sentence).mapError .fault := by
  have spans : ∀ {spans : List Span} {f : Forest}, f.WellFormed →
      (∀ s ∈ spans, s ∈ Span.upTo sentence.length) →
      (∀ s ∈ spans, ∀ labels, f.chart.find? s labels = none) →
      spans.Pairwise (fun s t => ¬ t.Within s) →
      spans.foldlM (p.fillSpanChecked sentence) f =
        (spans.foldlM (p.buildSpan sentence) f).mapError .fault := by
    intro spans
    induction spans with
    | nil => exact fun _ _ _ _ => rfl
    | cons span spans ih =>
        intro f wf known new order
        obtain ⟨apart, order_later⟩ := List.pairwise_cons.1 order
        obtain ⟨known_here, known_later⟩ := List.forall_mem_cons.1 known
        obtain ⟨new_here, new_later⟩ := List.forall_mem_cons.1 new
        obtain ⟨x, rfl, grows, -⟩ := p.fillSpan_filled sentence wf known_here new_here
        rw [List.foldlM_cons, List.foldlM_cons, h.fillSpanChecked_eq wf known_here new_here]
        rcases p.buildSpan_gives sentence f x.span with filled | ⟨-, stopped⟩
        · rw [filled]
          refine ih grows.wellFormed known_later (fun s member labels => ?_) order_later
          rw [x.find?_eq grows (fun same => apart s member (same ▸ .refl _)), new_later s member]
        · rw [stopped]
          rfl
  rw [parseChecked, build, spans (.empty sentence) (fun _ member => member)
    (fun _ _ _ => by simp [Chart.find?]) (Span.pairwise_upTo _)]
  cases (Span.upTo sentence.length).foldlM (p.buildSpan sentence)
      ⟨{ Graph.empty with words := sentence }, .empty⟩ with
  | error fault => rfl
  | ok f =>
      cases sentence with
      | nil => rfl
      | cons word words =>
          change (discard ((p.tryRoot f).mapError ParseFault.fault) >>= fun _ => _) =
            Except.mapError ParseFault.fault (discard (p.tryRoot f) >>= fun _ => _)
          cases p.tryRoot f <;> rfl

end Parser.LoadedFrom

end PackedForest
