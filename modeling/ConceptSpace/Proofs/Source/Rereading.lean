import ConceptSpace.Proofs.Pattern.Substitution
import ConceptSpace.Proofs.Source.Origin

/-!
# Reading again what was read

Without values, interpolation writes the concepts of source texts down and reads them again. Each of
them is read as the sequence of its parts, and then `&` is resolved, a second time
(`interpolate_without_values`). So a concept with `&` behind its head, which a source text can
denote if its own head is or has an `&`, does not come back as it is.
-/

namespace ConceptSpace

open Source (States)

namespace Concept

variable {c : Concept} {values : Values}

/-- The sequence of parts that a concept is made of. -/
def sequence : Concept → List Concept
  | .atom word => [.atom word]
  | .compound parts => parts

/-- What a concept becomes when `&` is resolved in its parts. -/
def resolved (c : Concept) : Concept :=
  (ofParts? (resolveSelf c.sequence)).getD c

theorem Clean.ofParts?_sequence (h : c.Clean) : ofParts? c.sequence = some c := by
  cases c with
  | atom word => rfl
  | compound ps => exact h.ofParts?_eq

theorem Clean.ofParts?_resolveSelf (h : c.Clean) :
    ofParts? (resolveSelf c.sequence) = some c.resolved := by
  rw [resolved]
  cases made : ofParts? (resolveSelf c.sequence) with
  | some d => rfl
  | none =>
    rw [ofParts?_eq_none_iff, resolveSelf_eq_nil_iff, ← ofParts?_eq_none_iff,
      h.ofParts?_sequence] at made
    cases made

/-- Without `&` behind the head, nothing is resolved. -/
theorem Clean.resolved_eq_self (h : c.Clean) (free : ∀ p ∈ c.parts.tail, selfReference ∉ p.words) :
    c.resolved = c := by
  have same : resolveSelf c.sequence = c.sequence := by
    cases c with
    | atom word => rfl
    | compound ps => exact resolveSelf_of_forall_tail free
  rw [resolved, same, h.ofParts?_sequence, Option.getD_some]

/-- Without values, a concept is written so that its parts are read. -/
theorem Clean.states_filledBranch (h : c.Clean) (none : ∀ name, values name = []) :
    States (filledBranch values c) c.sequence := by
  induction c with
  | atom word =>
    rw [(filled_atom_of_free fun _ => none word).2]
    exact States.of_forall (.cons rfl .nil) (by simp)
  | compound ps ih =>
    rw [filledBranch]
    refine States.of_forall ?_ (by simpa [filledNodes_eq_map] using h.ne_nil)
    rw [filledNodes_eq_map, List.forall₂_map_left_iff, sequence, List.forall₂_same]
    intro p hp
    exact Source.Node.names_nested (ih p hp (h.of_mem hp)) (h.of_mem hp).ofParts?_sequence

end Concept

namespace Source

variable {sources : List String} {values : Values} {cs : List Concept}

/-- What source texts denote is clean, if no word of it starts like a literal or a comment without
being one. -/
theorem clean_of_conceptsOf (denoted : conceptsOf sources = .ok cs)
    (closed : ∀ c ∈ cs, ∀ word ∈ c.words, ¬ IsUnclosed word) : ∀ c ∈ cs, c.Clean := by
  have built := built_of_concepts (fun _ cut token ht isWord =>
    (Token.isTextOf_of_tokenize cut token ht).isTokenText isWord) denoted
  exact fun c hc => (built c hc).clean fun word hw text => text.isToken (closed c hc word hw)

theorem substitute_without_values (clean : ∀ c ∈ cs, c.Clean) (none : ∀ name, values name = []) :
    substitute values cs = .ok (Concept.distinct (cs.map Concept.resolved)) := by
  have inserted : ∀ name, ∀ value ∈ values name, value.Clean := by simp [none]
  have read : ∀ c ∈ cs,
      readNodes (c.filledBranch values) [] = [c.sequence].map (⟨·, false⟩) :=
    fun c hc => ((clean c hc).states_filledBranch none).1
  rw [substitute_eq_of_readings clean inserted read, List.map_eq_flatMap]
  refine congrArg (fun l => Except.ok (Concept.distinct l)) (List.flatMap_congr fun c hc => ?_)
  rw [List.map_singleton, List.filterMap_cons_some (clean c hc).ofParts?_resolveSelf]
  rfl

theorem distinct_of_conceptsOf (denoted : conceptsOf sources = .ok cs) :
    Concept.distinct cs = cs := by
  obtain ⟨tokens, root, -, -, rfl⟩ := exists_outline_of_denote denoted
  exact Concept.distinct_eq_self (Sequence.nodup_keys_distinctBy Concept.key _)

/-- Without values, interpolation resolves `&` in the concepts of the source texts once more. They
come back as they are just if this changes none of them, so in particular if none has an `&` behind
its head. A word that starts like a literal or a comment without being one is excluded, since what is
written behind it could close it. -/
theorem interpolate_without_values (denoted : conceptsOf sources = .ok cs)
    (closed : ∀ c ∈ cs, ∀ word ∈ c.words, ¬ IsUnclosed word) (none : ∀ name, values name = []) :
    interpolate values sources = .ok (Concept.distinct (cs.map Concept.resolved)) ∧
    (interpolate values sources = .ok cs ↔ ∀ c ∈ cs, c.resolved = c) ∧
    ((∀ c ∈ cs, ∀ p ∈ c.parts.tail, Concept.selfReference ∉ p.words) →
      interpolate values sources = .ok cs) := by
  have clean := clean_of_conceptsOf denoted closed
  have again : interpolate values sources = .ok (Concept.distinct (cs.map Concept.resolved)) := by
    rw [interpolate, denoted, Sequence.ok_bind]
    exact substitute_without_values clean none
  have kept : (∀ c ∈ cs, c.resolved = c) → interpolate values sources = .ok cs := by
    intro same
    rw [again, List.map_congr_left same, List.map_id', distinct_of_conceptsOf denoted]
  refine ⟨again, ⟨fun same => ?_, kept⟩, fun free => ?_⟩
  · rw [again] at same
    have kept : Concept.distinct (cs.map Concept.resolved) = cs := Except.ok.inj same
    -- No concept has been dropped, so each stands where it stood.
    have all : Concept.distinct (cs.map Concept.resolved) = cs.map Concept.resolved :=
      (Concept.distinct_sublist _).eq_of_length (by rw [kept, List.length_map])
    have same : cs.map Concept.resolved = cs.map id := by
      rw [← all, kept, List.map_id]
    exact List.map_inj_left.mp same
  · exact kept fun c hc => (clean c hc).resolved_eq_self (free c hc)

/-- Facts with a head put in for `&`, which make sets of which the members change places. -/
private def sharedText : String := "\x7bk, m\x7d (: y & <<b, c>>)"

private def sharedFacts : List Concept :=
  [.compound [.atom ":", .atom "<<b, c>>", .atom "k", .atom "y"],
    .compound [.atom ":", .atom "<<b, c>>", .atom "m", .atom "y"], .atom "k", .atom "m"]

theorem sharedText_comes_back : conceptsOf [sharedText] = .ok sharedFacts ∧
    interpolate (∅ : Interpolations).values [sharedText] = .ok sharedFacts := by
  have denoted : conceptsOf [sharedText] = .ok sharedFacts := by decide +kernel
  have none : ∀ name, (∅ : Interpolations).values name = [] := by simp [Interpolations.values]
  obtain ⟨-, -, back⟩ := interpolate_without_values denoted (by decide +kernel) none
  exact ⟨denoted, back (by decide +kernel)⟩

/-- With `&` for its own head, a concept that has an `&` behind the head is read, and loses it when
it is read again. -/
theorem namedSelf_resolves_twice :
    conceptsOf ["& a &"] = .ok [.compound [.atom "a", .atom "&"]] ∧
      interpolate (∅ : Interpolations).values ["& a &"] ≠ conceptsOf ["& a &"] := by
  have denoted : conceptsOf ["& a &"] = .ok [.compound [.atom "a", .atom "&"]] := by decide +kernel
  have again : interpolate (∅ : Interpolations).values ["& a &"] = .ok [.atom "a"] := by
    decide +kernel
  rw [denoted, again]
  exact ⟨rfl, by decide⟩

end Source

end ConceptSpace
