import Mathlib.Data.List.Nodup
import PackedForest.Proofs.Rule.Naming

/-!
# Requests to one vocabulary

Sentences, features, rules and tables are read with one vocabulary, one after the other and in any
order. Some of these requests are refused, and a refused one leaves the strings it has numbered
before its fault.

After any requests the vocabulary is a numbering: no string stands in it twice, and the two ways of
looking something up are inverse. A request takes no number back, so what is handed out once names
the same string after all later requests (`Vocabulary.requests_bijective`).
-/

namespace PackedForest.Vocabulary

/-- Something that is read with a vocabulary. -/
inductive Request
  | word (s : String)
  | sentence (text : String)
  | features (column : List Char)
  | rule (factors : Nat) (line : List Char)
  | table (factors : Nat) (lines : List (Option (List Char)))

/-- The vocabulary that a request leaves, whether it is granted or refused. -/
def afterRequest (v : Vocabulary) : Request → Vocabulary
  | .word s => (v.intern s).2
  | .sentence text => ((internWords text).run v).2
  | .features column => ((readFeatures column).run.run v).2
  | .rule factors line => ((readRule factors line).run.run v).2
  | .table factors lines => ((readTable factors lines).run.run v).2

def afterRequests (v : Vocabulary) (requests : List Request) : Vocabulary :=
  requests.foldl afterRequest v

/-- The numbers that a request to `v` hands out name their strings in `w`. A refused request hands
out none. -/
def Request.HandsOut (v w : Vocabulary) : Request → Prop
  | .word s => w.symbol (v.intern s).1 = .ok s
  | .sentence text => ((internWords text).run v).1.mapM w.symbol =
      .ok ((Text.words text.toList).map String.ofList)
  | .features column => ∀ {f : Features}, ((readFeatures column).run.run v).1 = .ok f →
      ∀ entry ∈ f.entries, w.Names entry.1
  | .rule factors line => ∀ {r : Rule}, ((readRule factors line).run.run v).1 = .ok r → r.Named w
  | .table factors lines => ∀ {rules : List Rule},
      ((readTable factors lines).run.run v).1 = .ok rules → ∀ r ∈ rules, r.Named w

/-- Strings and numbers belong together one by one, whichever of the two is looked up. -/
structure Bijective (v : Vocabulary) : Prop where
  nodup : v.strings.toList.Nodup
  find?_eq_some_iff : ∀ (s : String) (i : Nat), v.find? s = some i ↔ v.strings[i]? = some s
  symbol_eq_ok_iff : ∀ (s : String) (i : Nat), v.symbol i = .ok s ↔ v.find? s = some i

/-- A string that stood at two places would be found at both. -/
theorem bijective (v : Vocabulary) : v.Bijective where
  nodup := by
    rw [List.nodup_iff_getElem?_ne_getElem?]
    intro i j before inside same
    obtain ⟨s, here⟩ : ∃ s, v.strings[j]? = some s :=
      ⟨v.strings[j], Array.getElem?_eq_getElem (by simpa using inside)⟩
    rw [Array.getElem?_toList, Array.getElem?_toList, here] at same
    have found := find?_eq_some_iff.2 same
    rw [find?_eq_some_iff.2 here] at found
    cases found
    exact Nat.lt_irrefl _ before
  find?_eq_some_iff _ _ := find?_eq_some_iff
  symbol_eq_ok_iff s i := by
    rw [symbol_eq_ok_iff, find?_eq_some_iff]
    constructor
    · rintro ⟨j, same, here⟩
      rwa [Int.ofNat_inj.1 same]
    · exact fun here => ⟨i, rfl, here⟩

namespace Request.HandsOut

variable {v w w' : Vocabulary} {request : Request}

theorem mono (h : request.HandsOut v w) (more : w'.Extends w) : request.HandsOut v w' := by
  cases request with
  | word s => exact more.symbol h
  | sentence text => exact mapM_eq_ok_iff.2 ((mapM_eq_ok_iff.1 h).imp fun _ _ => more.symbol)
  | features column => exact fun read entry listed => more.names (h read entry listed)
  | rule factors line => exact fun read => (h read).mono more
  | table factors lines => exact fun read r listed => (h read r listed).mono more

end Request.HandsOut

/-- A request adds strings and gives numbers that name what they are given for. -/
theorem afterRequest_spec (v : Vocabulary) (request : Request) :
    (v.afterRequest request).Extends v ∧ request.HandsOut v (v.afterRequest request) := by
  cases request with
  | word s => exact ⟨intern_extends v s, symbol_intern v s⟩
  | sentence text => exact internWords_spec text v
  | features column =>
      have leaves := readFeatures_named column v
      exact ⟨leaves.grows, leaves.returns⟩
  | rule factors line =>
      have leaves := readRule_named factors line v
      exact ⟨leaves.grows, leaves.returns⟩
  | table factors lines =>
      have leaves := readTable_named factors lines v
      exact ⟨leaves.grows, leaves.returns⟩

theorem extends_afterRequests (v : Vocabulary) (requests : List Request) :
    (v.afterRequests requests).Extends v := by
  induction requests generalizing v with
  | nil => exact .refl v
  | cons request requests ih => exact (ih _).trans (v.afterRequest_spec request).1

/-- Whatever was requested before, a vocabulary is a numbering. It is extended by one more request
and by all later ones, and what that request handed out they leave as it is. -/
theorem requests_bijective (v : Vocabulary) (earlier later : List Request) (request : Request) :
    (v.afterRequests earlier).Bijective ∧
    (v.afterRequests (earlier ++ request :: later)).Extends (v.afterRequests earlier) ∧
    request.HandsOut (v.afterRequests earlier) (v.afterRequests (earlier ++ request :: later)) := by
  have split : v.afterRequests (earlier ++ request :: later) =
      ((v.afterRequests earlier).afterRequest request).afterRequests later := List.foldl_append
  obtain ⟨here, handed⟩ := (v.afterRequests earlier).afterRequest_spec request
  have more := extends_afterRequests ((v.afterRequests earlier).afterRequest request) later
  rw [split]
  exact ⟨bijective _, more.trans here, handed.mono more⟩

end PackedForest.Vocabulary
